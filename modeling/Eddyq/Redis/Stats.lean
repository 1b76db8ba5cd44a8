import Eddyq.Redis.Seen
import Eddyq.Listing
import Mathlib.Data.Set.Card

/-!
# Counts by queue and state

`fn_get_stats` counts the sorted sets of every registered queue and sends each count as one text, `queue|state|count`;
`parse_stats_reply` splits the text at the first two bars. While state and indexes agree, the counts are those of the jobs
and nothing remains for `_global`; so the statistics are exact as long as no name has a bar in it
(`getStats_exact_iff`).
-/

namespace Eddyq.Redis

open Eddyq.Lib

/-! ## `fn_get_stats` -/

/-- The sets it counts for a queue, in its order. -/
def statKeys (q : String) : List (JobState × ZKey) :=
  [(.pending, .wait q), (.running, .nqrun q), (.scheduled, .nqscheduled q), (.completed, .nqcompleted q),
    (.failed, .nqfailed q), (.cancelled, .nqcancelled q)]

/-- The global sets and their mirrors. -/
def globalKeys : List (JobState × ZKey × (String → ZKey)) :=
  [(.scheduled, .delayed, .nqscheduled), (.completed, .completed, .nqcompleted), (.failed, .failed, .nqfailed),
    (.cancelled, .cancelled, .nqcancelled)]

/-- `q .. '|' .. state .. '|' .. tostring(n)`. -/
def statEntry (q : String) (st : JobState) (n : Nat) : String := q ++ "|" ++ st.asStr ++ "|" ++ n.repr

/-- The entries of a queue. -/
def queueStats (s : Store) (q : String) : List String :=
  (statKeys q).filterMap fun (st, k) => if 0 < (s.zsets k).card then some (statEntry q st (s.zsets k).card) else none

/-- What the mirrors of all queues account for. -/
def accounted (s : Store) (mirror : String → ZKey) : Nat := (s.queuesSeen.map (fun q => (s.zsets (mirror q)).card)).sum

/-- The remainder of a global set. -/
def globalStats (s : Store) : List String :=
  globalKeys.filterMap fun (st, k, mirror) =>
    if 0 < (s.zsets k).card - accounted s mirror then
      some (statEntry "_global" st ((s.zsets k).card - accounted s mirror))
    else none

/-- `eddyq_get_stats`. -/
def fnGetStats (s : Store) : List String := s.queuesSeen.flatMap (queueStats s) ++ globalStats s

/-! ## `parse_stats_reply` -/

/-- `QueueStateCount`. -/
structure QueueStateCount where
  queue : String
  state : JobState
  count : ℤ
  deriving DecidableEq

/-- Split at the first bar; no second part if there is none. -/
def splitBar : List Char → List Char × Option (List Char)
  | [] => ([], none)
  | c :: cs => if c = '|' then ([], some cs) else ((c :: (splitBar cs).1), (splitBar cs).2)

/-- The state with this text. -/
def parseState (t : String) : Option JobState :=
  [JobState.pending, .running, .scheduled, .completed, .failed, .cancelled].find? (fun st => st.asStr = t)

/-- A number in decimal. -/
def parseDigits (cs : List Char) : Option ℤ :=
  if cs ≠ [] ∧ cs.all Char.isDigit = true then some (Nat.ofDigitChars 10 cs 0) else none

/-- `parse::<i64>`; no count comes near the bounds. -/
def parseI64 : List Char → Option ℤ
  | [] => none
  | c :: cs =>
    if c = '-' then (parseDigits cs).map (fun n => -n)
    else if c = '+' then parseDigits cs
    else parseDigits (c :: cs)

/-- `splitn(3, '|')` and the three parts; a count that is no number is 0. -/
def parseEntry (t : String) : Option QueueStateCount :=
  match splitBar t.toList with
  | (queue, some rest) =>
    match splitBar rest with
    | (state, some count) => (parseState (String.ofList state)).map fun st =>
        { queue := String.ofList queue, state := st, count := (parseI64 count).getD 0 }
    | (_, none) => none
  | (_, none) => none

/-- `get_stats`. -/
def getStats (s : Store) : List QueueStateCount := (fnGetStats s).filterMap parseEntry

/-! ## The statement -/

/-- The jobs of a queue in a state. -/
def Store.jobsIn (s : Store) (q : String) (st : JobState) : Set JobId :=
  {id | ∃ h, s.job id = some h ∧ h.queue.getD "" = q ∧ h.state = some st}

/-- **The histogram**: one entry for each queue and state with jobs, with their number, and no other. -/
structure Histogram (s : Store) (out : List QueueStateCount) : Prop where
  once : (out.map (fun e => (e.queue, e.state))).Nodup
  mem : ∀ q st (n : ℤ), { queue := q, state := st, count := n } ∈ out ↔ 0 < n ∧ n = (s.jobsIn q st).ncard

/-- State and indexes agree, and so does the registry of queues. -/
structure Store.Surveyed (s : Store) : Prop extends s.Consistent where
  seen : ∀ id h, s.job id = some h → h.queue.getD "" ∈ s.queuesSeen
  once : s.queuesSeen.Nodup

/-- No job is on a queue with a bar in its name. -/
def Store.NoBars (s : Store) : Prop := ∀ id h, s.job id = some h → '|' ∉ (h.queue.getD "").toList

/-! ## Encoding and decoding -/

section Text

theorem splitBar_append {cs : List Char} (h : '|' ∉ cs) (ds : List Char) : splitBar (cs ++ '|' :: ds) = (cs, some ds) := by
  induction cs with
  | nil => simp [splitBar]
  | cons c cs ih =>
    rw [List.mem_cons, not_or] at h
    have hc : c ≠ '|' := Ne.symm h.1
    simp [splitBar, hc, ih h.2]

/-- The part before the first bar has none. -/
theorem not_mem_splitBar (cs : List Char) : '|' ∉ (splitBar cs).1 := by
  induction cs with
  | nil => simp [splitBar]
  | cons c cs ih =>
    unfold splitBar
    split
    · simp
    · next hc => simp [ih, Ne.symm hc]

theorem asStr_no_bar (st : JobState) : '|' ∉ st.asStr.toList := by
  cases st <;> decide

theorem parseState_asStr (st : JobState) : parseState st.asStr = some st := by
  cases st <;> decide

/-- A count is read back. -/
theorem parseI64_repr (n : Nat) : parseI64 n.repr.toList = some (n : ℤ) := by
  have hdigit : ∀ c ∈ Nat.toDigits 10 n, c.isDigit = true := fun c hc =>
    Nat.isDigit_of_mem_toDigits (by decide) (by decide) hc
  have hparse : parseDigits (Nat.toDigits 10 n) = some (n : ℤ) := by
    unfold parseDigits
    rw [if_pos ⟨Nat.toDigits_ne_nil, List.all_eq_true.mpr hdigit⟩, Nat.ofDigitChars_ten_toDigits]
  rw [Nat.toList_repr]
  cases hd : Nat.toDigits 10 n with
  | nil => exact absurd hd Nat.toDigits_ne_nil
  | cons c cs =>
    have hc : c.isDigit = true := hdigit c (hd ▸ List.mem_cons_self)
    have hminus : c ≠ '-' := by
      rintro rfl
      exact absurd hc (by decide)
    have hplus : c ≠ '+' := by
      rintro rfl
      exact absurd hc (by decide)
    rw [parseI64, if_neg hminus, if_neg hplus, ← hd, hparse]

/-- **An entry whose name has no bar is read back.** -/
theorem parseEntry_statEntry {q : String} (h : '|' ∉ q.toList) (st : JobState) (n : Nat) :
    parseEntry (statEntry q st n) = some { queue := q, state := st, count := n } := by
  have hchars : (statEntry q st n).toList = q.toList ++ '|' :: (st.asStr.toList ++ '|' :: n.repr.toList) := by
    simp [statEntry]
  unfold parseEntry
  rw [hchars, splitBar_append h]
  dsimp only
  rw [splitBar_append (asStr_no_bar st)]
  simp only [String.ofList_toList, parseState_asStr, Option.map_some, parseI64_repr, Option.getD_some]

/-- The name that is read has no bar. -/
theorem parseEntry_queue {t : String} {e : QueueStateCount} (h : parseEntry t = some e) : '|' ∉ e.queue.toList := by
  have hno := not_mem_splitBar t.toList
  unfold parseEntry at h
  split at h
  · next queue rest hq =>
    rw [hq] at hno
    split at h
    · obtain ⟨st, _, rfl⟩ := Option.map_eq_some_iff.mp h
      simpa using hno
    · cases h
  · cases h

end Text

/-! ## Counting -/

section Counting

variable {s : Store}

/-- A set that is counted for a queue is that of one state. -/
theorem statKeys_home {q q' g : String} {st st' : JobState} {k : ZKey} (h : (st, k) ∈ statKeys q) :
    k ∈ homeKeys st' q' g ↔ st' = st ∧ q' = q := by
  simp only [statKeys, List.mem_cons, Prod.mk.injEq, List.not_mem_nil, or_false] at h
  rcases h with ⟨rfl, rfl⟩ | ⟨rfl, rfl⟩ | ⟨rfl, rfl⟩ | ⟨rfl, rfl⟩ | ⟨rfl, rfl⟩ | ⟨rfl, rfl⟩ <;> cases st' <;>
    by_cases hg : g = "" <;> simp [homeKeys, hg, eq_comm]

theorem exists_statKey (q : String) (st : JobState) : ∃ k, (st, k) ∈ statKeys q := by
  cases st <;> simp [statKeys]

theorem statKeys_nodup (q : String) : ((statKeys q).map Prod.fst).Nodup := by
  simp [statKeys]

/-- The members of the set of a state are the jobs of the queue in it. -/
theorem Store.Consistent.mem_statKey (hs : s.Consistent) {q : String} {st : JobState} {k : ZKey} (h : (st, k) ∈ statKeys q)
    (id : JobId) : id ∈ (s.zsets k).members ↔ id ∈ s.jobsIn q st := by
  have hjob : ∀ x, s.job id = some x → (id ∈ (s.zsets k).members ↔ x.queue.getD "" = q ∧ x.state = some st) := by
    intro x hx
    obtain ⟨st', hst⟩ := Option.isSome_iff_exists.mp (hs.stated id x hx)
    rw [hs.prescribed id x hx k, JobHash.prescribed, hst]
    dsimp only
    rw [statKeys_home h, Option.some.injEq]
    exact And.comm
  constructor
  · intro hm
    obtain ⟨x, hx⟩ := Option.isSome_iff_exists.mp (hs.hashed id k hm)
    exact ⟨x, hx, (hjob x hx).mp hm⟩
  · rintro ⟨x, hx, hq, hst⟩
    exact (hjob x hx).mpr ⟨hq, hst⟩

theorem Store.Consistent.card_statKey (hs : s.Consistent) {q : String} {st : JobState} {k : ZKey} (h : (st, k) ∈ statKeys q) :
    (s.zsets k).card = (s.jobsIn q st).ncard := by
  have hset : s.jobsIn q st = ((s.zsets k).members.toFinset : Set JobId) := by
    ext id
    rw [← hs.mem_statKey h]
    simp
  have hnodup : (s.zsets k).members.Nodup := (s.zsets k).nodup
  have hcard : (s.zsets k).card = (s.zsets k).members.length := (List.length_map _).symm
  rw [hset, Set.ncard_coe_finset, List.toFinset_card_of_nodup hnodup, hcard]

/-- A global set and its mirrors hold the jobs of one state. -/
theorem globalKeys_home {st st' : JobState} {k : ZKey} {m : String → ZKey} (h : (st, k, m) ∈ globalKeys) (q g : String) :
    (k ∈ homeKeys st' q g → st' = st) ∧ (st, m q) ∈ statKeys q := by
  simp only [globalKeys, List.mem_cons, Prod.mk.injEq, List.not_mem_nil, or_false] at h
  rcases h with ⟨rfl, rfl, rfl⟩ | ⟨rfl, rfl, rfl⟩ | ⟨rfl, rfl, rfl⟩ | ⟨rfl, rfl, rfl⟩ <;>
    refine ⟨?_, by simp [statKeys]⟩ <;> cases st' <;> by_cases hg : g = "" <;> simp [homeKeys, hg]

/-- **Nothing remains of the global sets.** -/
theorem Store.Surveyed.globalStats (hs : s.Surveyed) : globalStats s = [] := by
  refine List.filterMap_eq_nil_iff.mpr ?_
  rintro ⟨st, k, m⟩ hk
  have hsub : (s.zsets k).members ⊆ s.queuesSeen.flatMap (fun q => (s.zsets (m q)).members) := by
    intro id hm
    obtain ⟨x, hx⟩ := Option.isSome_iff_exists.mp (hs.hashed id k hm)
    obtain ⟨st', hst⟩ := Option.isSome_iff_exists.mp (hs.stated id x hx)
    have hin := (hs.prescribed id x hx k).mp hm
    rw [JobHash.prescribed, hst] at hin
    obtain ⟨hsame, hstat⟩ := globalKeys_home hk (x.queue.getD "") (x.groupKey.getD "")
    obtain rfl := hsame hin
    exact List.mem_flatMap.mpr ⟨_, hs.seen id x hx, (hs.mem_statKey hstat id).mpr ⟨x, hx, rfl, hst⟩⟩
  have hnodup : (s.zsets k).members.Nodup := (s.zsets k).nodup
  have hle := (List.subperm_of_subset hnodup hsub).length_le
  have hsum : (s.queuesSeen.flatMap (fun q => (s.zsets (m q)).members)).length = accounted s m := by
    simp [accounted, List.length_flatMap, ZSet.card, ZSet.members]
  have hcard : (s.zsets k).card = (s.zsets k).members.length := (List.length_map _).symm
  dsimp only
  rw [if_neg (by omega)]

/-- The counts of a queue. -/
def queueCounts (s : Store) (q : String) : List QueueStateCount :=
  (statKeys q).filterMap fun (st, k) =>
    if 0 < (s.zsets k).card then some { queue := q, state := st, count := (s.zsets k).card } else none

/-- **What is read back**, when no name has a bar. -/
theorem Store.Surveyed.getStats_eq (hs : s.Surveyed) (hno : s.NoBars) :
    getStats s = s.queuesSeen.flatMap (queueCounts s) := by
  rw [getStats, fnGetStats, hs.globalStats, List.append_nil, List.filterMap_flatMap]
  congr 1
  funext q
  rw [queueStats, queueCounts, List.filterMap_filterMap]
  refine List.filterMap_congr ?_
  rintro ⟨st, k⟩ hk
  dsimp only
  split
  · next hpos =>
    -- a set that is not empty holds a job, whose queue this is
    rw [hs.card_statKey hk] at hpos
    obtain ⟨id, x, hx, hq, _⟩ := (Set.ncard_pos (Set.finite_of_ncard_pos hpos)).mp hpos
    exact parseEntry_statEntry (hq ▸ hno id x hx) st _
  · rfl

theorem mem_queueCounts (hs : s.Consistent) {q : String} {e : QueueStateCount} : e ∈ queueCounts s q ↔
    e.queue = q ∧ 0 < e.count ∧ e.count = (s.jobsIn q e.state).ncard := by
  rw [queueCounts, List.mem_filterMap]
  constructor
  · rintro ⟨⟨st, k⟩, hk, he⟩
    dsimp only at he
    split at he
    · next hpos =>
      cases he
      exact ⟨rfl, by simpa using hpos, by rw [hs.card_statKey hk]⟩
    · cases he
  · rintro ⟨rfl, hpos, hn⟩
    obtain ⟨k, hk⟩ := exists_statKey e.queue e.state
    refine ⟨(e.state, k), hk, ?_⟩
    rw [← hs.card_statKey hk] at hn
    dsimp only
    rw [if_pos (by omega), ← hn]

theorem queueCounts_nodup (s : Store) (q : String) : ((queueCounts s q).map (fun e => (e.queue, e.state))).Nodup := by
  have hstates : (statKeys q).Pairwise (fun p p' => p.1 ≠ p'.1) := List.pairwise_map.mp (statKeys_nodup q)
  rw [List.Nodup, List.pairwise_map, queueCounts, List.pairwise_filterMap]
  refine hstates.imp ?_
  rintro ⟨st, k⟩ ⟨st', k'⟩ hne e he e' he' heq
  simp only [Option.ite_none_right_eq_some, Option.some.injEq] at he he'
  obtain ⟨-, rfl⟩ := he
  obtain ⟨-, rfl⟩ := he'
  exact hne (congrArg Prod.snd heq)

/-- **Statistics are exact** exactly when no job is on a queue with a bar in its name. -/
theorem getStats_exact_iff (s : Store) (hs : s.Surveyed) : Histogram s (getStats s) ↔ s.NoBars := by
  constructor
  · intro h id x hx hbar
    obtain ⟨st, hst⟩ := Option.isSome_iff_exists.mp (hs.stated id x hx)
    have hmem : id ∈ s.jobsIn (x.queue.getD "") st := ⟨x, hx, rfl, hst⟩
    obtain ⟨k, hk⟩ := exists_statKey (x.queue.getD "") st
    have hpos : 0 < (s.jobsIn (x.queue.getD "") st).ncard := by
      rw [← hs.card_statKey hk]
      have hin := List.length_pos_of_mem ((hs.mem_statKey hk id).mpr hmem)
      rwa [ZSet.members, List.length_map] at hin
    have hout := (h.mem (x.queue.getD "") st _).mpr ⟨Int.natCast_pos.mpr hpos, rfl⟩
    obtain ⟨t, _, ht⟩ := List.mem_filterMap.mp hout
    exact parseEntry_queue ht hbar
  · intro hno
    rw [hs.getStats_eq hno]
    refine ⟨?_, fun q st n => ?_⟩
    · rw [List.map_flatMap, List.nodup_flatMap]
      refine ⟨fun q _ => queueCounts_nodup s q, ?_⟩
      refine hs.once.imp (fun {q q'} hne => ?_)
      intro p hp hp'
      obtain ⟨e, he, rfl⟩ := List.mem_map.mp hp
      obtain ⟨e', he', heq⟩ := List.mem_map.mp hp'
      rw [mem_queueCounts hs.toConsistent] at he he'
      exact hne (he.1.symm.trans ((congrArg Prod.fst heq).symm.trans he'.1))
    · simp only [List.mem_flatMap, mem_queueCounts hs.toConsistent]
      constructor
      · rintro ⟨_, _, rfl, hpos, hn⟩
        exact ⟨hpos, hn⟩
      · rintro ⟨hpos, hn⟩
        have hfin : 0 < (s.jobsIn q st).ncard := by omega
        obtain ⟨id, x, hx, rfl, _⟩ := (Set.ncard_pos (Set.finite_of_ncard_pos hfin)).mp hfin
        exact ⟨_, hs.seen id x hx, rfl, hpos, hn⟩

end Counting

/-! ## Runs -/

/-- A store that refines a line of named jobs, with a registry that has all queues, agrees. -/
theorem Refines.surveyed {s : Store} {A : Line} (hr : Refines True s A) (hseen : s.Seen) : s.Surveyed := by
  refine { hr.consistent with seen := fun id x hx => ?_, once := hseen.once }
  rcases hr.cases id with ⟨-, hg⟩ | ⟨i, h, -, hjob, hhas, -⟩
  · have hnone : s.job id = none := hg.hash
    rw [hnone] at hx
    cases hx
  · rw [hjob] at hx
    cases hx
    refine hseen.queue id _ ?_
    rw [Store.hash, hjob, Option.getD_some, hhas.queue]
    rfl

theorem reached_surveyed {s : Store} (h : s.Reached (Op.Ok True)) : s.Surveyed := by
  obtain ⟨A, _, hr⟩ := reached_sim h
  exact hr.surveyed (reached_seen h)

/-- A job that runs and one that is scheduled, on two queues. -/
def twoQueuesRun : List Op :=
  [.enqueue { kind := "mail", queue := "default" } 1000,
   .enqueue { kind := "mail", queue := "bulk", scheduledAtMs := 9000 } 1000,
   .claim { batchSize := 1, worker := "w", now := 2000, queues := ["default"], kinds := ["mail"] }]

theorem twoQueuesRun_surveyed : (twoQueuesRun.foldl Op.apply Store.empty).Surveyed :=
  reached_surveyed (run_of_guards twoQueuesRun (Reach.refl _)
    ⟨fun _ => ⟨by decide, by decide⟩, fun _ => ⟨by decide, by decide⟩, trivial, trivial⟩)

theorem twoQueuesRun_histogram :
    Histogram (twoQueuesRun.foldl Op.apply Store.empty) (getStats (twoQueuesRun.foldl Op.apply Store.empty)) := by
  have hs := twoQueuesRun_surveyed
  refine (getStats_exact_iff _ hs).mpr fun id x hx => ?_
  have hqueues : (twoQueuesRun.foldl Op.apply Store.empty).queuesSeen = ["bulk", "default"] := by decide
  have hno : ∀ q ∈ ["bulk", "default"], '|' ∉ q.toList := by decide
  exact hno _ (hqueues ▸ hs.seen id x hx)

/-- A job on a queue with a bar in its name, which Redis accepts. -/
def barredRun : List Op := [.enqueue { kind := "mail", queue := "a|b" } 1000]

theorem barredRun_surveyed : (barredRun.foldl Op.apply Store.empty).Surveyed :=
  reached_surveyed (run_of_guards barredRun (Reach.refl _) ⟨fun _ => ⟨by decide, by decide⟩, trivial⟩)

/-- Its entry `a|b|pending|1` is read as one of the queue `a` in the state `b`, and dropped. -/
theorem barredRun_no_histogram : (barredRun.foldl Op.apply Store.empty).Surveyed ∧
    ¬ Histogram (barredRun.foldl Op.apply Store.empty) (getStats (barredRun.foldl Op.apply Store.empty)) := by
  refine ⟨barredRun_surveyed, fun h => ?_⟩
  have hnone : getStats (barredRun.foldl Op.apply Store.empty) = [] := by decide
  have hkey : (JobState.pending, ZKey.wait "a|b") ∈ statKeys "a|b" := List.mem_cons_self
  have hcard : ((barredRun.foldl Op.apply Store.empty).zsets (.wait "a|b")).card = 1 := by decide
  rw [barredRun_surveyed.card_statKey hkey] at hcard
  have hin := (h.mem "a|b" .pending 1).mpr ⟨one_pos, by rw [hcard]; rfl⟩
  rw [hnone] at hin
  cases hin

end Eddyq.Redis
