import Eddyq.Lib.Decimal
import Eddyq.Redis.Leases
import Eddyq.Redis.Stats

/-!
# Bulk enqueue on the wire

`enqueue` and `enqueue_many` send strings: thirteen for each request, in `enqueue_many` one request after the other
between their number and the clock. `eddyq_enqueue_many` finds them by position (`subArgs_eq`), so that it is
`fnEnqueueMany` of what the requests say (`luaEnqueueMany_eq`), as a run of `enqueue` is (`enqueueEach_eq`). The clocks of
the two are not the same: the bulk function passes `tostring(now_ms)` on, which has 14 significant digits, and the id
that `enqueue` reads back was also written by `tostring`. `bulk_agrees_iff` says when this matters.
-/

namespace Eddyq.Redis

open Eddyq.Lib

/-! ## The Rust side -/

/-- `serde_json` where it writes the arguments, `cjson` where it reads them. -/
structure Codec where
  json : Json → String
  tags : List String → String
  rule : Option RetentionRule → String
  readTags : String → List String
  readRule : String → Option RetentionRule

/-- `to_string` of an integer. -/
def intText (n : ℤ) : String := String.ofList (decimal n)

/-- `dyn_to_argv`: the thirteen strings of a request. -/
def wireArgv (c : Codec) (r : DynEnqueue) : List String :=
  [ r.kind,
    c.json r.payload,
    intText r.priority,
    intText r.maxAttempts,
    intText (r.scheduledAt.getD 0),
    r.uniqueKey.getD "",
    r.groupKey.getD "",
    r.queue,
    c.tags r.tags,
    c.json r.metadata,
    c.rule r.removeOnComplete,
    c.rule r.removeOnFail,
    intText r.maxStalledCount ]

/-- The arguments of `enqueue_many`: the number of requests, their strings, the clock. -/
def bulkArgv (c : Codec) (reqs : List DynEnqueue) (now : ℤ) : List String :=
  intText reqs.length :: (reqs.flatMap (wireArgv c) ++ [intText now])

/-- `EnqueueResult`. -/
inductive EnqueueResult
  | inserted (id : ℤ)
  | skipped
  deriving DecidableEq

/-- The tag of a result on the wire. -/
def EnqueueResult.tag : EnqueueResult → String
  | .inserted _ => "inserted"
  | .skipped => "skipped"

/-- `Error::Protocol`, by its text. -/
inductive ProtocolError
  | missingTag
  | missingId
  | badId (text : String)
  | unknownTag (tag : String)
  deriving DecidableEq

/-- `parse_enqueue_reply`. -/
def parseEnqueueReply : List String → Except ProtocolError EnqueueResult
  | [] => .error .missingTag
  | tag :: rest =>
    if tag = "inserted" then
      match rest with
      | [] => .error .missingId
      | id :: _ => match parseI64 id.toList with
        | some n => .ok (.inserted n)
        | none => .error (.badId id)
    else if tag = "skipped" then .ok .skipped
    else .error (.unknownTag tag)

/-- The loop of `enqueue_many` over the reply: how many pairs say "inserted" and how many "skipped". -/
def countTags : List String → Nat × Nat
  | tag :: _ :: rest =>
    let (i, k) := countTags rest
    if tag = "inserted" then (i + 1, k) else if tag = "skipped" then (i, k + 1) else (i, k)
  | _ => (0, 0)

/-! ## The Lua side -/

/-- `args[i]`. -/
def arg (args : List String) (i : Nat) : String := args[i - 1]?.getD ""

/-- `tonumber` on the text of an integer. -/
def tonumber (t : String) : ℤ := readNumber t.toList

/-- `tostring` of a number. -/
def tostring (n : ℤ) : String := String.ofList (g14 n)

/-- The arguments of `eddyq_enqueue` by their positions. -/
def decodeArgs (c : Codec) (args : List String) : EnqueueArgs where
  kind := arg args 1
  payload := arg args 2
  priority := tonumber (arg args 3)
  maxAttempts := tonumber (arg args 4)
  scheduledAtMs := tonumber (arg args 5)
  uniqueKey := arg args 6
  groupKey := arg args 7
  queue := arg args 8
  tags := c.readTags (arg args 9)
  metadata := arg args 10
  removeOnComplete := c.readRule (arg args 11)
  removeOnFail := c.readRule (arg args 12)
  maxStalledCount := tonumber (arg args 13)

/-- The reply of `eddyq_enqueue`. -/
def enqueueReply : Option JobId → List String
  | some id => ["inserted", tostring id]
  | none => ["skipped"]

/-- `eddyq_enqueue` with its string arguments. -/
def luaEnqueue (c : Codec) (s : Store) (args : List String) : Store × List String :=
  let r := fnEnqueue s (decodeArgs c args) (tonumber (arg args 14))
  (r.1, enqueueReply r.2)

/-- `sub_args` of `eddyq_enqueue_many`. -/
def subArgs (args : List String) (base : Nat) (now : ℤ) : List String :=
  [ arg args (base + 1), arg args (base + 2), arg args (base + 3), arg args (base + 4),
    arg args (base + 5), arg args (base + 6), arg args (base + 7), arg args (base + 8),
    arg args (base + 9), arg args (base + 10), arg args (base + 11), arg args (base + 12),
    arg args (base + 13),
    tostring now ]

/-- One pass of the loop of `eddyq_enqueue_many`. -/
def bulkStep (c : Codec) (args : List String) (now : ℤ) (acc : Store × List String) (i : Nat) : Store × List String :=
  let base := 1 + (i - 1) * 13
  let r := luaEnqueue c acc.1 (subArgs args base now)
  (r.1, acc.2 ++ [arg r.2 1, r.2[1]?.getD "0"])

/-- `eddyq_enqueue_many` with its string arguments. -/
def luaEnqueueMany (c : Codec) (s : Store) (args : List String) : Store × List String :=
  let n := tonumber (arg args 1)
  let now := tonumber (arg args args.length)
  (List.range' 1 n.toNat).foldl (bulkStep c args now) (s, [])

/-! ## The two ways -/

/-- `enqueue` at a clock reading. -/
def enqueueOne (c : Codec) (now : ℤ) (s : Store) (r : DynEnqueue) : Store × Except ProtocolError EnqueueResult :=
  let x := luaEnqueue c s (wireArgv c r ++ [intText now])
  (x.1, parseEnqueueReply x.2)

/-- `enqueue`, request by request, at one clock reading. -/
def enqueueEach (c : Codec) (now : ℤ) : Store → List DynEnqueue → Store × List (Except ProtocolError EnqueueResult)
  | s, [] => (s, [])
  | s, r :: rs =>
    let x := enqueueOne c now s r
    let y := enqueueEach c now x.1 rs
    (y.1, x.2 :: y.2)

/-- The call of `enqueue_many`; there is none for an empty list. -/
def enqueueCall (c : Codec) (now : ℤ) (s : Store) (reqs : List DynEnqueue) : Store × List String :=
  if reqs = [] then (s, []) else luaEnqueueMany c s (bulkArgv c reqs now)

/-- `enqueue_many`: how many it inserted and how many it skipped. -/
def enqueueMany (c : Codec) (now : ℤ) (s : Store) (reqs : List DynEnqueue) : Store × Nat × Nat :=
  let x := enqueueCall c now s reqs
  (x.1, countTags x.2)

/-- The tags of a flat reply. -/
def tags : List String → List String
  | tag :: _ :: rest => tag :: tags rest
  | _ => []

/-- Bulk and single calls leave the same store and have the same results, and the counts add up. -/
structure BulkAgrees (c : Codec) (now : ℤ) (s : Store) (reqs : List DynEnqueue) : Prop where
  store : (enqueueMany c now s reqs).1 = (enqueueEach c now s reqs).1
  results : ∃ rs : List EnqueueResult, (enqueueEach c now s reqs).2 = rs.map .ok ∧
    tags (enqueueCall c now s reqs).2 = rs.map EnqueueResult.tag
  total : (enqueueMany c now s reqs).2.1 + (enqueueMany c now s reqs).2.2 = reqs.length

/-- How many of the requests become jobs: those without a unique key and, of each key that is not reserved, the first. -/
def newJobs (reserved : String → Bool) : List DynEnqueue → Nat
  | [] => 0
  | r :: rs =>
    let key := r.uniqueKey.getD ""
    if key ≠ "" ∧ reserved key then newJobs reserved rs
    else newJobs (fun k => reserved k || (key ≠ "" && k = key)) rs + 1

/-! ## Positions -/

section Positions

variable {c : Codec}

/-- What `eddyq_enqueue` makes of a request. -/
def received (c : Codec) (r : DynEnqueue) : EnqueueArgs := decodeArgs c (wireArgv c r)

/-- What `serde_json` writes `cjson` reads. -/
structure Codec.Lawful (c : Codec) : Prop where
  tags : ∀ ts, c.readTags (c.tags ts) = ts
  rule : ∀ o, c.readRule (c.rule o) = o

/-- A request with the clock after it. -/
theorem luaEnqueue_wire (s : Store) (r : DynEnqueue) (t : String) : luaEnqueue c s (wireArgv c r ++ [t]) =
    ((fnEnqueue s (received c r) (tonumber t)).1, enqueueReply (fnEnqueue s (received c r) (tonumber t)).2) := rfl

theorem arg_append (pre l : List String) (k : Nat) : arg (pre ++ l) (pre.length + (k + 1)) = arg l (k + 1) := by
  unfold arg
  rw [List.getElem?_append_right (by omega)]
  congr 2
  omega

/-- **The stride**: thirteen strings after the base are those of the request that starts there. -/
theorem subArgs_eq (pre rest : List String) (r : DynEnqueue) (now : ℤ) :
    subArgs (pre ++ (wireArgv c r ++ rest)) pre.length now = wireArgv c r ++ [tostring now] := by
  unfold subArgs
  simp only [arg_append pre (wireArgv c r ++ rest)]
  rfl

/-- The pair of the flat reply. -/
def replyPair : Option JobId → List String
  | some id => ["inserted", tostring id]
  | none => ["skipped", "0"]

theorem bulkStep_eq (pre rest : List String) (r : DynEnqueue) (now : ℤ) (s : Store) (out : List String) {i : Nat}
    (hpre : pre.length = 1 + i * 13) : bulkStep c (pre ++ (wireArgv c r ++ rest)) now (s, out) (i + 1) =
      ((fnEnqueue s (received c r) (tonumber (tostring now))).1,
        out ++ replyPair (fnEnqueue s (received c r) (tonumber (tostring now))).2) := by
  unfold bulkStep
  dsimp only
  rw [Nat.add_sub_cancel, ← hpre, subArgs_eq, luaEnqueue_wire]
  cases (fnEnqueue s (received c r) (tonumber (tostring now))).2 <;> rfl

/-- The loop of the bulk function, with the requests before the current one in `pre`. -/
theorem bulkLoop_eq (now : ℤ) (last : List String) : ∀ (reqs : List DynEnqueue) (pre : List String) (i : Nat) (s : Store)
    (out : List String), pre.length = 1 + i * 13 →
    (List.range' (i + 1) reqs.length).foldl (bulkStep c (pre ++ (reqs.flatMap (wireArgv c) ++ last)) now) (s, out) =
      ((fnEnqueueMany s (reqs.map (received c)) (tonumber (tostring now))).1,
        out ++ (fnEnqueueMany s (reqs.map (received c)) (tonumber (tostring now))).2.flatMap replyPair)
  | [], pre, i, s, out, _ => by simp [fnEnqueueMany]
  | r :: rs, pre, i, s, out, hpre => by
    have hargs : pre ++ ((r :: rs).flatMap (wireArgv c) ++ last) =
        pre ++ (wireArgv c r ++ (rs.flatMap (wireArgv c) ++ last)) := by
      rw [List.flatMap_cons, List.append_assoc]
    have hnext : (pre ++ wireArgv c r).length = 1 + (i + 1) * 13 := by
      rw [List.length_append, hpre]
      show 1 + i * 13 + 13 = _
      omega
    rw [List.length_cons, List.range'_succ, List.foldl_cons, hargs, bulkStep_eq pre _ r now s out hpre,
      ← List.append_assoc pre]
    exact (bulkLoop_eq now last rs (pre ++ wireArgv c r) (i + 1) _ _ hnext).trans
      (by rw [List.map_cons, fnEnqueueMany, List.flatMap_cons, List.append_assoc])

theorem tonumber_intText (n : ℤ) : tonumber (intText n) = n := by
  rw [tonumber, intText, String.toList_ofList, readNumber_decimal]

/-- The decoded arguments are those of `dynToArgv`. -/
theorem received_eq (h : c.Lawful) (r : DynEnqueue) : received c r = dynToArgv c.json r := by
  have hnum : ∀ n : ℤ, tonumber (intText n) = n := tonumber_intText
  show EnqueueArgs.mk .. = EnqueueArgs.mk ..
  simp only [EnqueueArgs.mk.injEq]
  exact ⟨rfl, rfl, hnum _, hnum _, hnum _, rfl, rfl, rfl, h.tags _, rfl, h.rule _, h.rule _, hnum _⟩

/-- The clock that the bulk function hands on. -/
theorem tonumber_tostring (n : ℤ) : tonumber (tostring n) = n.sign * round14 n.natAbs := by
  rw [tonumber, tostring, String.toList_ofList, readNumber_g14]

/-- **`eddyq_enqueue_many` of the arguments** is `fnEnqueueMany` of what the requests say, at the clock that is handed on. -/
theorem luaEnqueueMany_eq (s : Store) (reqs : List DynEnqueue) (now : ℤ) :
    luaEnqueueMany c s (bulkArgv c reqs now) =
      ((fnEnqueueMany s (reqs.map (received c)) (tonumber (tostring now))).1,
        (fnEnqueueMany s (reqs.map (received c)) (tonumber (tostring now))).2.flatMap replyPair) := by
  have hn : tonumber (arg (bulkArgv c reqs now) 1) = (reqs.length : ℤ) := tonumber_intText _
  have hlast : arg (bulkArgv c reqs now) (bulkArgv c reqs now).length = intText now := by
    unfold arg bulkArgv
    rw [List.length_cons, Nat.add_sub_cancel, ← List.cons_append, List.getElem?_append_right (by simp)]
    simp
  unfold luaEnqueueMany
  rw [hn, hlast, tonumber_intText]
  exact (bulkLoop_eq now [intText now] reqs [intText reqs.length] 0 s [] rfl).trans (by rw [List.nil_append])

theorem enqueueCall_eq (s : Store) (reqs : List DynEnqueue) (now : ℤ) : enqueueCall c now s reqs =
    ((fnEnqueueMany s (reqs.map (received c)) (tonumber (tostring now))).1,
      (fnEnqueueMany s (reqs.map (received c)) (tonumber (tostring now))).2.flatMap replyPair) := by
  unfold enqueueCall
  split
  · next h =>
    subst h
    rfl
  · exact luaEnqueueMany_eq s reqs now

/-- **A run of `enqueue`** is `fnEnqueueMany` at the clock. -/
theorem enqueueEach_eq (now : ℤ) : ∀ (reqs : List DynEnqueue) (s : Store), enqueueEach c now s reqs =
    ((fnEnqueueMany s (reqs.map (received c)) now).1,
      (fnEnqueueMany s (reqs.map (received c)) now).2.map (fun o => parseEnqueueReply (enqueueReply o)))
  | [], s => rfl
  | r :: rs, s => by
    have hone : enqueueOne c now s r = ((fnEnqueue s (received c r) now).1,
        parseEnqueueReply (enqueueReply (fnEnqueue s (received c r) now).2)) := by
      unfold enqueueOne
      rw [luaEnqueue_wire, tonumber_intText]
    unfold enqueueEach
    rw [hone]
    dsimp only
    rw [enqueueEach_eq now rs]
    rfl

end Positions

/-! ## The jobs of a bulk call -/

section NewJobs

variable {s : Store} {now : ℤ}

theorem fnEnqueue_skips {a : EnqueueArgs} (h : a.uniqueKey ≠ "" ∧ (s.unique a.uniqueKey).isSome) :
    fnEnqueue s a now = (s, none) := by
  rw [fnEnqueue, if_pos h]

/-- The reservations after an enqueue that inserts. -/
structure Inserts (s : Store) (a : EnqueueArgs) (now : ℤ) (s' : Store) : Prop where
  reply : fnEnqueue s a now = (s', some (s.idgen + 1))
  idgen : s'.idgen = s.idgen + 1
  unique : ∀ k, (s'.unique k).isSome = ((s.unique k).isSome || (a.uniqueKey ≠ "" && k = a.uniqueKey))
  createdAt : (s'.hash (s.idgen + 1)).createdAt = some now
  old : ∀ j ≤ s.idgen, s'.hash j = s.hash j

theorem fnEnqueue_inserts {a : EnqueueArgs} (h : ¬(a.uniqueKey ≠ "" ∧ (s.unique a.uniqueKey).isSome)) :
    ∃ s', Inserts s a now s' := by
  refine ⟨(fnEnqueue s a now).1, ?_⟩
  have heq : fnEnqueue s a now = (insertJob (if a.uniqueKey ≠ "" then
      Store.setUnique { s with idgen := s.idgen + 1 } a.uniqueKey (s.idgen + 1) else { s with idgen := s.idgen + 1 })
        a (s.idgen + 1) now, some (s.idgen + 1)) := if_neg h
  have hash : ∀ j, (if a.uniqueKey ≠ "" then Store.setUnique { s with idgen := s.idgen + 1 } a.uniqueKey (s.idgen + 1)
      else { s with idgen := s.idgen + 1 }).hash j = s.hash j := fun j => by split <;> rfl
  rw [heq]
  refine ⟨heq, ?_, fun k => ?_, ?_, fun j hj => ?_⟩
  · rw [insertJob_idgen]
    split <;> rfl
  · rw [insertJob_unique]
    by_cases hk : a.uniqueKey = ""
    · simp [hk]
    · rw [if_pos hk]
      by_cases hkk : k = a.uniqueKey <;> simp [Store.setUnique, hk, hkk]
  · rw [insertJob_hash, if_pos rfl]
    rfl
  · rw [insertJob_hash, if_neg (Nat.ne_of_lt (Nat.lt_succ_of_le hj)), hash]

/-- The reservations after a request that becomes a job. -/
def reserve (reserved : String → Bool) (r : DynEnqueue) : String → Bool :=
  fun k => reserved k || (r.uniqueKey.getD "" ≠ "" && k = r.uniqueKey.getD "")

/-- The ids of the new jobs, in order. -/
def newIds (reserved : String → Bool) (idgen : Nat) : List DynEnqueue → List (Option JobId)
  | [] => []
  | r :: rs =>
    if r.uniqueKey.getD "" ≠ "" ∧ reserved (r.uniqueKey.getD "") then none :: newIds reserved idgen rs
    else some (idgen + 1) :: newIds (reserve reserved r) (idgen + 1) rs

theorem newJobs_cons (reserved : String → Bool) (r : DynEnqueue) (rs : List DynEnqueue) :
    newJobs reserved (r :: rs) = if r.uniqueKey.getD "" ≠ "" ∧ reserved (r.uniqueKey.getD "") then newJobs reserved rs
      else newJobs (reserve reserved r) rs + 1 := rfl

/-- They are the numbers after the counter. -/
theorem mem_newIds {id : Nat} : ∀ {reqs : List DynEnqueue} {reserved : String → Bool} {idgen : Nat},
    some id ∈ newIds reserved idgen reqs → idgen < id ∧ id ≤ idgen + newJobs reserved reqs
  | [], _, _, h => nomatch h
  | r :: rs, reserved, idgen, h => by
    unfold newIds at h
    rw [newJobs_cons]
    split at h
    · next hk =>
      rw [if_pos hk]
      exact mem_newIds ((List.mem_cons.mp h).resolve_left nofun)
    · next hk =>
      rw [if_neg hk]
      rcases List.mem_cons.mp h with h | h
      · cases h
        omega
      · obtain ⟨hlo, hhi⟩ := mem_newIds h
        omega

theorem newIds_last : ∀ {reqs : List DynEnqueue} {reserved : String → Bool} {idgen : Nat}, newJobs reserved reqs ≠ 0 →
    some (idgen + newJobs reserved reqs) ∈ newIds reserved idgen reqs
  | [], _, _, h => absurd rfl h
  | r :: rs, reserved, idgen, h => by
    unfold newIds
    rw [newJobs_cons] at h ⊢
    split at h
    · next hk =>
      rw [if_pos hk, if_pos hk]
      exact List.mem_cons_of_mem _ (newIds_last h)
    · next hk =>
      rw [if_neg hk, if_neg hk]
      by_cases h0 : newJobs (reserve reserved r) rs = 0
      · rw [h0]
        exact List.mem_cons_self
      · have := @newIds_last rs _ (idgen + 1) h0
        rw [← Nat.add_assoc, Nat.add_right_comm]
        exact List.mem_cons_of_mem _ this

variable {c : Codec}

/-- What the bulk function and the clock have to do with each other: the ids do not depend on the clock, old jobs stay,
and the first new job carries it. -/
theorem fnEnqueueMany_facts (now : ℤ) : ∀ (reqs : List DynEnqueue) (s : Store) (reserved : String → Bool),
    (∀ k, (s.unique k).isSome = reserved k) →
    (fnEnqueueMany s (reqs.map (received c)) now).2 = newIds reserved s.idgen reqs ∧
    (∀ j ≤ s.idgen, (fnEnqueueMany s (reqs.map (received c)) now).1.hash j = s.hash j) ∧
    (newJobs reserved reqs = 0 → (fnEnqueueMany s (reqs.map (received c)) now).1 = s) ∧
    (newJobs reserved reqs ≠ 0 →
      ((fnEnqueueMany s (reqs.map (received c)) now).1.hash (s.idgen + 1)).createdAt = some now)
  | [], s, _, _ => ⟨rfl, fun _ _ => rfl, fun _ => rfl, fun h => absurd rfl h⟩
  | r :: rs, s, reserved, hres => by
    have hkey : (received c r).uniqueKey = r.uniqueKey.getD "" := rfl
    rw [newJobs_cons, List.map_cons, fnEnqueueMany, newIds]
    by_cases hk : r.uniqueKey.getD "" ≠ "" ∧ reserved (r.uniqueKey.getD "")
    · rw [if_pos hk, if_pos hk, fnEnqueue_skips (by rw [hkey, hres]; exact hk)]
      obtain ⟨hids, hold, hsame, hclock⟩ := fnEnqueueMany_facts now rs s reserved hres
      exact ⟨congrArg _ hids, hold, hsame, hclock⟩
    · rw [if_neg hk, if_neg hk]
      obtain ⟨s', h⟩ : ∃ s', Inserts s (received c r) now s' := fnEnqueue_inserts (by rw [hkey, hres]; exact hk)
      rw [h.reply]
      obtain ⟨hids, hold, -, -⟩ := fnEnqueueMany_facts now rs s' (reserve reserved r)
        (fun k => by rw [h.unique, hkey, hres]; rfl)
      rw [h.idgen] at hids hold
      refine ⟨congrArg _ hids, fun j hj => ?_, fun h0 => absurd h0 (Nat.succ_ne_zero _), fun _ => ?_⟩
      · exact (hold j (Nat.le_succ_of_le hj)).trans (h.old j hj)
      · rw [hold _ (Nat.le_refl _)]
        exact h.createdAt

end NewJobs

/-! ## The result -/

section Result

variable {c : Codec} {s : Store} {now : ℤ}

/-- `enqueue` reads an id back exactly when it has at most 14 digits. -/
theorem parseI64_tostring (id : Nat) : parseI64 (tostring id).toList = if id < 10 ^ 14 then some (id : ℤ) else none := by
  rw [tostring, String.toList_ofList]
  split
  · next h =>
    rw [g14_small (by rw [Int.natAbs_natCast]; exact h)]
    have hrepr : decimal (id : ℤ) = id.repr.toList := by
      rw [decimal, signed, if_neg (by omega), Int.natAbs_natCast, Nat.toList_repr]
    rw [hrepr, parseI64_repr]
  · next h =>
    have he : 'e' ∈ g14 id := exponent_mem_g14 (by rw [Int.natAbs_natCast]; exact not_lt.mp h)
    have hnone : ∀ l : List Char, 'e' ∈ l → parseDigits l = none := fun l hl =>
      if_neg fun hall => absurd (List.all_eq_true.mp hall.2 _ hl) (by decide)
    have htail : ∀ x l, g14 id = x :: l → x ≠ 'e' → 'e' ∈ l := fun x l hl hx =>
      (List.mem_cons.mp (hl ▸ he)).resolve_left (Ne.symm hx)
    cases hg : g14 id with
    | nil => rfl
    | cons x l =>
      rw [parseI64]
      split
      · next hx => rw [hnone l (htail x l hg (by rw [hx]; decide)), Option.map_none]
      · split
        · next hx => exact hnone l (htail x l hg (by rw [hx]; decide))
        · exact hnone _ (hg ▸ he)

/-- The result of `enqueue` for a reply. -/
theorem parse_enqueueReply (o : Option JobId) (r : EnqueueResult) : parseEnqueueReply (enqueueReply o) = .ok r ↔
    (∀ id ∈ o, id < 10 ^ 14) ∧ r = (match o with | some id => .inserted id | none => .skipped) := by
  cases o with
  | none =>
    show Except.ok EnqueueResult.skipped = Except.ok r ↔ _
    simp [eq_comm]
  | some id =>
    have hred : parseEnqueueReply (enqueueReply (some id)) = (match parseI64 (tostring id).toList with
      | some n => .ok (.inserted n)
      | none => .error (.badId (tostring id))) := rfl
    rw [hred, parseI64_tostring]
    by_cases h : id < 10 ^ 14
    · rw [if_pos h]
      constructor
      · intro hr
        cases hr
        exact ⟨fun i hi => Option.some.inj hi ▸ h, rfl⟩
      · rintro ⟨-, rfl⟩
        rfl
    · rw [if_neg h]
      constructor
      · intro hr
        cases hr
      · rintro ⟨hall, -⟩
        exact absurd (hall id rfl) h

theorem tags_append (o : Option JobId) (l : List String) :
    tags (replyPair o ++ l) = (match o with | some _ => "inserted" | none => "skipped") :: tags l := by
  cases o <;> rfl

/-- The counts add up, whatever the ids. -/
theorem countTags_pairs : ∀ os : List (Option JobId),
    (countTags (os.flatMap replyPair)).1 + (countTags (os.flatMap replyPair)).2 = os.length
  | [] => rfl
  | o :: os => by
    have ih := countTags_pairs os
    rw [List.flatMap_cons, List.length_cons, ← ih]
    cases o <;> simp [replyPair, countTags] <;> omega

theorem length_fnEnqueueMany (now : ℤ) : ∀ (as : List EnqueueArgs) (s : Store),
    (fnEnqueueMany s as now).2.length = as.length
  | [], _ => rfl
  | a :: as, s => congrArg (· + 1) (length_fnEnqueueMany now as (fnEnqueue s a now).1)

/-- The same results, as soon as every id can be read. -/
theorem results_iff (os : List (Option JobId)) :
    (∃ rs : List EnqueueResult, os.map (fun o => parseEnqueueReply (enqueueReply o)) = rs.map .ok ∧
      tags (os.flatMap replyPair) = rs.map EnqueueResult.tag) ↔ ∀ id : JobId, some id ∈ os → id < 10 ^ 14 := by
  constructor
  · rintro ⟨rs, hrs, -⟩ id hid
    have hmem : parseEnqueueReply (enqueueReply (some id)) ∈ rs.map Except.ok := hrs ▸ List.mem_map_of_mem hid
    obtain ⟨r, -, hr⟩ := List.mem_map.mp hmem
    exact ((parse_enqueueReply _ r).mp hr.symm).1 id rfl
  · intro h
    refine ⟨os.map fun o => match o with | some id => .inserted id | none => .skipped, ?_, ?_⟩
    · rw [List.map_map]
      exact List.map_congr_left fun o ho => (parse_enqueueReply o _).mpr ⟨fun id hid => h id (hid ▸ ho), rfl⟩
    · clear h
      induction os with
      | nil => rfl
      | cons o os ih =>
        rw [List.flatMap_cons, tags_append, ih]
        cases o <;> rfl

/-- The stores agree when there is no new job or the clock survives `tostring`. -/
theorem bulk_store_iff (c : Codec) (now : ℤ) (s : Store) (reqs : List DynEnqueue) :
    (enqueueMany c now s reqs).1 = (enqueueEach c now s reqs).1 ↔
      newJobs (fun k => (s.unique k).isSome) reqs = 0 ∨ round14 now.natAbs = now.natAbs := by
  obtain ⟨-, -, hsame, hclock⟩ := fnEnqueueMany_facts (c := c) now reqs s _ (fun _ => rfl)
  obtain ⟨-, -, hsame', hclock'⟩ := fnEnqueueMany_facts (c := c) (tonumber (tostring now)) reqs s _ (fun _ => rfl)
  unfold enqueueMany
  dsimp only
  rw [enqueueEach_eq, enqueueCall_eq]
  dsimp only
  constructor
  · intro h
    by_cases h0 : newJobs (fun k => (s.unique k).isSome) reqs = 0
    · exact .inl h0
    · -- the first new job has the clock of its enqueue
      have hc := hclock' h0
      rw [h, hclock h0, Option.some.injEq, tonumber_tostring] at hc
      refine .inr ?_
      by_cases hz : now = 0
      · subst hz
        rfl
      · have habs := congrArg Int.natAbs hc
        rw [Int.natAbs_mul, Int.natAbs_sign_of_ne_zero hz, Nat.one_mul, Int.natAbs_natCast] at habs
        exact habs.symm
  · rintro (h0 | h)
    · rw [hsame h0, hsame' h0]
    · rw [tonumber_tostring, h, Int.sign_mul_natAbs]

/-- The results agree when every new id can be read. -/
theorem bulk_results_iff (c : Codec) (now : ℤ) (s : Store) (reqs : List DynEnqueue) :
    (∃ rs : List EnqueueResult, (enqueueEach c now s reqs).2 = rs.map .ok ∧
      tags (enqueueCall c now s reqs).2 = rs.map EnqueueResult.tag) ↔
    newJobs (fun k => (s.unique k).isSome) reqs = 0 ∨
      s.idgen + newJobs (fun k => (s.unique k).isSome) reqs < 10 ^ 14 := by
  obtain ⟨hids, -⟩ := fnEnqueueMany_facts (c := c) now reqs s _ (fun _ => rfl)
  obtain ⟨hids', -⟩ := fnEnqueueMany_facts (c := c) (tonumber (tostring now)) reqs s _ (fun _ => rfl)
  rw [enqueueEach_eq, enqueueCall_eq]
  dsimp only
  rw [hids, hids', results_iff]
  constructor
  · intro h
    by_cases h0 : newJobs (fun k => (s.unique k).isSome) reqs = 0
    · exact .inl h0
    · exact .inr (h _ (newIds_last h0))
  · intro h id hid
    obtain ⟨hlo, hhi⟩ := mem_newIds hid
    rcases h with h0 | h
    · rw [h0] at hhi
      exact absurd hhi (not_le.mpr hlo)
    · exact hhi.trans_lt h

/-- Every request is inserted or skipped. -/
theorem enqueueMany_total (c : Codec) (now : ℤ) (s : Store) (reqs : List DynEnqueue) :
    (enqueueMany c now s reqs).2.1 + (enqueueMany c now s reqs).2.2 = reqs.length := by
  unfold enqueueMany
  dsimp only
  rw [enqueueCall_eq, countTags_pairs, length_fnEnqueueMany, List.length_map]

/-- **Bulk enqueue is the run of single ones** exactly when no request becomes a job, or the clock has at most 14
significant digits and every new id has at most 14 digits. -/
theorem bulk_agrees_iff (c : Codec) (now : ℤ) (s : Store) (reqs : List DynEnqueue) : BulkAgrees c now s reqs ↔
    newJobs (fun k => (s.unique k).isSome) reqs = 0 ∨
      round14 now.natAbs = now.natAbs ∧ s.idgen + newJobs (fun k => (s.unique k).isSome) reqs < 10 ^ 14 := by
  have htotal := enqueueMany_total c now s reqs
  constructor
  · rintro ⟨hstore, hresults, -⟩
    rcases (bulk_store_iff c now s reqs).mp hstore with h0 | hc
    · exact .inl h0
    · exact ((bulk_results_iff c now s reqs).mp hresults).imp_right fun hi => ⟨hc, hi⟩
  · rintro (h0 | ⟨hc, hi⟩)
    · exact ⟨(bulk_store_iff c now s reqs).mpr (.inl h0), (bulk_results_iff c now s reqs).mpr (.inl h0), htotal⟩
    · exact ⟨(bulk_store_iff c now s reqs).mpr (.inr hc), (bulk_results_iff c now s reqs).mpr (.inr hi), htotal⟩

/-- With fifteen digits on the clock, in the year 5138, a bulk job is created at another time than a single one. -/
theorem late_clock_differs : ¬ ∀ c now s reqs, BulkAgrees c now s reqs := by
  intro h
  have hstore := (h ⟨fun _ => "{}", fun _ => "[]", fun _ => "", fun _ => [], fun _ => none⟩ 100000000000001
    Store.empty [{ kind := "mail", payload := .null }]).store
  rcases (bulk_store_iff _ _ _ _).mp hstore with h0 | hc
  · exact absurd h0 (by decide)
  · exact absurd hc (by decide)

end Result

end Eddyq.Redis
