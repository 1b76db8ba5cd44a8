import Eddyq.Lib.Walk
import Eddyq.Pg.Claim

/-!
# The group walks

`GROUP_WALK` and `GROUP_WALK_BY_QUEUE` as the recursive queries they are, under any collation: a first row, a recursive
term over the rows of the last round, and a final projection. Both end and return the keys that `SELECT DISTINCT`
returns, once each. `groupWalk` and `groupWalkByQueue`, which a claim uses, are these queries under the order of code
points.
-/

namespace Eddyq.Pg

open Eddyq.Lib

/-- The order of texts in the database. Two texts compare equal only when they are the same text. -/
structure Collation where
  lt : String → String → Bool
  strict : StrictTotal (fun a b => lt a b = true)

/-- `(a.1, a.2) < (b.1, b.2)`. -/
def Collation.pairLt (c : Collation) (a b : String × String) : Bool := c.lt a.1 b.1 || (a.1 = b.1 && c.lt a.2 b.2)

theorem Collation.strict_pairLt (c : Collation) : StrictTotal (fun a b => c.pairLt a b = true) := by
  simpa [Collation.pairLt] using c.strict.row c.strict

/-- The order of code points. -/
def Collation.codePoints : Collation where
  lt a b := decide (a < b)
  strict :=
    { irrefl := fun a => by simp
      trans := fun {a b c} hab hbc => by
        simp only [decide_eq_true_eq] at hab hbc ⊢
        exact String.lt_trans hab hbc
      total := fun {a b} hab hba => by
        simp only [decide_eq_true_eq] at hab hba
        exact String.le_antisymm hba hab }

section Walk

variable (c : Collation) (db : Db) (now : ℤ) (kinds queues : List String)

/-- The group keys of the due pending jobs of a listed kind on a listed queue, one for each job. -/
def groupKeys : List String := (db.jobs.filter (fun j => j.due now kinds && j.queue ∈ queues)).filterMap (·.groupKey)

/-- The same with the queue of each. -/
def groupPairs : List (String × String) :=
  (db.jobs.filter (fun j => j.due now kinds && j.queue ∈ queues)).filterMap
    (fun j => j.groupKey.map (fun k => (j.queue, k)))

/-- `SELECT DISTINCT group_key` under the conditions of the walks. -/
def distinctGroupKeys : List String := (groupKeys db now kinds queues).dedup

/-- `SELECT j.group_key ... AND j.group_key > w.key ORDER BY j.group_key LIMIT 1`. -/
def nextKey (key : String) : Option String := least c.lt ((groupKeys db now kinds queues).filter (c.lt key))

/-- `SELECT j.queue, j.group_key ... AND (j.queue, j.group_key) > (w.queue, w.key) ORDER BY ... LIMIT 1`. -/
def nextPair (pair : String × String) : Option (String × String) :=
  least c.pairLt ((groupPairs db now kinds queues).filter (c.pairLt pair))

/-- `GROUP_WALK` in `n` rounds. The first row is there if there is a key; a row with a key has the next key or `NULL`
as its successor, and a row with `NULL` has none. -/
def groupWalkQuery (n : Nat) : Option (List String) :=
  (rounds (fun rows => (rows.filterMap id).map (nextKey c db now kinds queues)) n
    ((least c.lt (groupKeys db now kinds queues)).toList.map some)).map (List.filterMap id)

/-- `GROUP_WALK_BY_QUEUE` in `n` rounds. The lateral join drops a row without a next pair. -/
def groupWalkByQueueQuery (n : Nat) : Option (List String) :=
  (rounds (List.filterMap (nextPair c db now kinds queues)) n
    (least c.pairLt (groupPairs db now kinds queues)).toList).map (fun pairs => (pairs.map Prod.snd).dedup)

end Walk

/-! ## The scans visit every key -/

section Least

variable {α : Type} {lt : α → α → Bool}

/-- The least so far against the keys that are left. -/
theorem foldl_least (hs : StrictTotal (fun a b => lt a b = true)) (l : List α) (m : α) :
    l.foldl (fun m y => if lt y m then y else m) m ∈ m :: l ∧
      ∀ x ∈ m :: l, ¬ lt x (l.foldl (fun m y => if lt y m then y else m) m) := by
  induction l generalizing m with
  | nil => simpa using hs.irrefl m
  | cons y l ih =>
    rw [List.foldl_cons]
    obtain ⟨hin, hmin⟩ := ih (if lt y m then y else m)
    generalize l.foldl (fun m y => if lt y m then y else m) (if lt y m then y else m) = r at hin hmin
    have hfirst := hmin _ List.mem_cons_self
    have hrest : ∀ x ∈ l, ¬ lt x r := fun x hx => hmin x (List.mem_cons_of_mem _ hx)
    by_cases hy : lt y m
    · simp only [hy, if_true] at hin hfirst
      refine ⟨List.mem_cons_of_mem _ hin, fun x hx => ?_⟩
      rcases List.mem_cons.mp hx with rfl | hx
      · exact fun h => hfirst (hs.trans hy h)
      · rcases List.mem_cons.mp hx with rfl | hx
        · exact hfirst
        · exact hrest x hx
    · simp only [hy, Bool.false_eq_true, if_false] at hin hfirst
      refine ⟨?_, fun x hx => ?_⟩
      · rcases List.mem_cons.mp hin with rfl | hin
        · exact List.mem_cons_self
        · exact List.mem_cons_of_mem _ (List.mem_cons_of_mem _ hin)
      · rcases List.mem_cons.mp hx with rfl | hx
        · exact hfirst
        · rcases List.mem_cons.mp hx with rfl | hx
          · intro hxr
            by_cases hrm : lt r m
            · exact hy (hs.trans hxr hrm)
            · exact hy (hs.total hrm hfirst ▸ hxr)
          · exact hrest x hx

theorem leastOf_least (hs : StrictTotal (fun a b => lt a b = true)) (p : α → Bool) (keys : List α) :
    LeastOf (fun a b => lt a b = true) keys (fun x => p x = true) (least lt (keys.filter p)) := by
  cases hk : keys.filter p with
  | nil => exact fun x hx hp => List.not_mem_nil (hk ▸ List.mem_filter.mpr ⟨hx, hp⟩)
  | cons x l =>
    obtain ⟨hin, hmin⟩ := foldl_least hs l x
    rw [← hk] at hin hmin
    exact ⟨(List.mem_filter.mp hin).1, (List.mem_filter.mp hin).2,
      fun y hy hp => hmin y (List.mem_filter.mpr ⟨hy, hp⟩)⟩

/-- Seeking the least key past the last one is a loose scan. -/
theorem seeks_least (hs : StrictTotal (fun a b => lt a b = true)) (keys : List α) :
    Seeks (fun a b => lt a b = true) keys (least lt keys) (fun k => least lt (keys.filter (lt k))) where
  toStrictTotal := hs
  start := by simpa using leastOf_least hs (fun _ => true) keys
  next k := leastOf_least hs (lt k) keys

/-- The scan of a claim follows the trail when it may take as many steps. -/
theorem walkFrom_of_trail {keys : List α} {o : Option α} {l : List α}
    (h : Trail (fun k => least lt (keys.filter (lt k))) o l) (m : Nat) :
    walkFrom lt keys (l.length + m + 1) o = l := by
  induction h with
  | nil => rfl
  | @cons k l _ ih =>
    simp only [List.length_cons, walkFrom, Nat.add_right_comm _ 1 m, ih]

/-- A loose scan may take as many steps as there are keys. -/
theorem looseScan_eq [DecidableEq α] (hs : StrictTotal (fun a b => lt a b = true)) {keys l : List α}
    (h : Trail (fun k => least lt (keys.filter (lt k))) (least lt keys) l) : looseScan lt keys = l := by
  have hle : l.length ≤ keys.length := by
    rw [((seeks_least hs keys).perm h).2.length_eq]
    exact (List.dedup_sublist keys).length_le
  have := walkFrom_of_trail h (keys.length - l.length)
  rwa [Nat.add_sub_cancel' hle] at this

/-- So it is the trail. -/
theorem looseScan_trail [DecidableEq α] (hs : StrictTotal (fun a b => lt a b = true)) (keys : List α) :
    Trail (fun k => least lt (keys.filter (lt k))) (least lt keys) (looseScan lt keys) := by
  obtain ⟨l, hl⟩ := (seeks_least hs keys).trail
  rwa [looseScan_eq hs hl]

end Least

/-! ## The queries -/

section Queries

variable (c : Collation) (db : Db) (now : ℤ) (kinds queues : List String)

/-- The keys are those of the pairs. -/
theorem map_groupPairs : (groupPairs db now kinds queues).map Prod.snd = groupKeys db now kinds queues := by
  rw [groupPairs, groupKeys, List.map_filterMap]
  congr 1
  funext j
  cases j.groupKey <;> rfl

/-- The first walk ends with what the scan visits. -/
theorem groupWalkQuery_of_trail {l : List String}
    (h : Trail (nextKey c db now kinds queues) (least c.lt (groupKeys db now kinds queues)) l) (m : Nat) :
    groupWalkQuery c db now kinds queues (l.length + 2 + m) = some l := by
  unfold groupWalkQuery
  cases hs : least c.lt (groupKeys db now kinds queues) with
  | none =>
    rw [hs] at h
    cases h
    rw [List.length_nil, Nat.add_right_comm]
    rfl
  | some k =>
    rw [hs] at h
    rw [Option.toList_some, List.map_singleton, rounds_add (rounds_null h) m]
    simp

/-- The second walk ends with the keys of the pairs the scan visits. -/
theorem groupWalkByQueueQuery_of_trail {l : List (String × String)}
    (h : Trail (nextPair c db now kinds queues) (least c.pairLt (groupPairs db now kinds queues)) l) (m : Nat) :
    groupWalkByQueueQuery c db now kinds queues (l.length + 1 + m) = some (l.map Prod.snd).dedup := by
  rw [groupWalkByQueueQuery, rounds_add (rounds_toList h) m]
  rfl

/-- The keys of all pairs, once each, are the keys, once each. -/
theorem dedup_map_perm {l : List (String × String)} (h : l.Perm (groupPairs db now kinds queues).dedup) :
    (l.map Prod.snd).dedup.Perm (distinctGroupKeys db now kinds queues) := by
  refine (List.perm_ext_iff_of_nodup (List.nodup_dedup _) (List.nodup_dedup _)).mpr fun k => ?_
  simp only [List.mem_dedup, ← map_groupPairs, List.mem_map, h.mem_iff]

/-- **Both walks end and return the keys that `SELECT DISTINCT` returns, each of them once.** -/
theorem groupWalks_eq_distinct :
    ∃ n ks ks', (∀ m, groupWalkQuery c db now kinds queues (n + m) = some ks) ∧
      (∀ m, groupWalkByQueueQuery c db now kinds queues (n + m) = some ks') ∧
      ks.Nodup ∧ ks.Perm (distinctGroupKeys db now kinds queues) ∧
      ks'.Nodup ∧ ks'.Perm (distinctGroupKeys db now kinds queues) := by
  have hs := seeks_least c.strict (groupKeys db now kinds queues)
  have hs' := seeks_least c.strict_pairLt (groupPairs db now kinds queues)
  obtain ⟨l, hl⟩ := hs.trail
  obtain ⟨l', hl'⟩ := hs'.trail
  refine ⟨l.length + 2 + (l'.length + 1), l, (l'.map Prod.snd).dedup, fun m => ?_, fun m => ?_,
    (hs.perm hl).1, (hs.perm hl).2, List.nodup_dedup _, dedup_map_perm db now kinds queues (hs'.perm hl').2⟩
  · rw [Nat.add_assoc]
    exact groupWalkQuery_of_trail c db now kinds queues hl _
  · rw [Nat.add_comm (l.length + 2), Nat.add_assoc]
    exact groupWalkByQueueQuery_of_trail c db now kinds queues hl' _

/-- The walk of a claim is the first query under the order of code points. -/
theorem groupWalkQuery_codePoints :
    ∃ n, ∀ m, groupWalkQuery .codePoints db now kinds queues (n + m) = some (groupWalk db now kinds queues) :=
  ⟨_, groupWalkQuery_of_trail _ db now kinds queues (looseScan_trail Collation.codePoints.strict _)⟩

/-- The walk of a claim that skips full queues is the second query. -/
theorem groupWalkByQueueQuery_codePoints :
    ∃ n, ∀ m, groupWalkByQueueQuery .codePoints db now kinds queues (n + m) =
      some (groupWalkByQueue db now kinds queues) :=
  ⟨_, groupWalkByQueueQuery_of_trail _ db now kinds queues (looseScan_trail Collation.codePoints.strict_pairLt _)⟩

/-- The walk of a claim visits every key once. -/
theorem groupWalk_keys : (groupWalk db now kinds queues).Nodup ∧
    ∀ k, k ∈ groupWalk db now kinds queues ↔ k ∈ groupKeys db now kinds queues := by
  have hs := seeks_least Collation.codePoints.strict (groupKeys db now kinds queues)
  obtain ⟨hnodup, hperm⟩ := hs.perm (looseScan_trail Collation.codePoints.strict _)
  exact ⟨hnodup, fun k => hperm.mem_iff.trans List.mem_dedup⟩

/-- So does the walk that skips full queues. -/
theorem groupWalkByQueue_keys : (groupWalkByQueue db now kinds queues).Nodup ∧
    ∀ k, k ∈ groupWalkByQueue db now kinds queues ↔ k ∈ groupKeys db now kinds queues := by
  have hs := seeks_least Collation.codePoints.strict_pairLt (groupPairs db now kinds queues)
  obtain ⟨-, hperm⟩ := hs.perm (looseScan_trail Collation.codePoints.strict_pairLt _)
  exact ⟨List.nodup_dedup _, fun k => (dedup_map_perm db now kinds queues hperm).mem_iff.trans List.mem_dedup⟩

end Queries

end Eddyq.Pg
