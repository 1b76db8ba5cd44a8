import Eddyq.Redis.Cleanup

/-!
# Inline retention on Redis

When a job is finalized, `apply_retention` prunes the set of its queue and final state. An entry of another job is
*due* when it is older than the rule's age, or beyond the newest `count` entries of which the finalizing job is one
(`due`). Both kinds are at the beginning of the set, the finalizing job left out, wherever its own entry is.

* `retentionVictims_eq`: the two passes together take the first `RETENTION_PRUNE_CAP` entries that are due.
* `pruneAll_swept`: the victims leave no trace.
* `retention_exact`: what a verdict does to a job with a rule of ages and counts.
-/

namespace Eddyq.Redis

open Eddyq.Lib

/-! ## What is due -/

/-- The entries of the other jobs, oldest first. -/
def others (z : ZSet JobId) (self : JobId) : List (ℤ × JobId) := z.entries.filter (fun e => e.2 ≠ self)

/-- Older than the age of the rule. -/
def overAge (age : Option Nat) (now score : ℤ) : Bool :=
  match age with
  | some a => score < now - a * 1000
  | none => false

/-- The newest entries that a rule keeps beside the finalizing job, which is counted. -/
def newest (keep : Option Nat) (l : List (ℤ × JobId)) : List (ℤ × JobId) :=
  match keep with
  | some n => l.drop (l.length - (n - 1))
  | none => l

/-- The jobs that a rule says to prune, oldest first. -/
def due (z : ZSet JobId) (self : JobId) (age keep : Option Nat) (now : ℤ) : List JobId :=
  ((others z self).filter (fun e => overAge age now e.1 ∨ e ∉ newest keep (others z self))).map Prod.snd

section Due

variable {z : ZSet JobId} {self : JobId} {age keep : Option Nat} {now : ℤ}

theorem overAge_mono (age : Option Nat) (now a b : ℤ) (h : a ≤ b) (hb : overAge age now b) : overAge age now a := by
  cases age with
  | none => cases hb
  | some n =>
    simp only [overAge, decide_eq_true_eq] at hb ⊢
    omega

theorem others_map (z : ZSet JobId) (self : JobId) :
    (others z self).map Prod.snd = z.members.filter (· ≠ self) := (ZSet.members_rem z self)

theorem nodup_others (z : ZSet JobId) (self : JobId) : ((others z self).map Prod.snd).Nodup := (z.rem self).nodup

/-- The finalizing job has at most one entry. -/
theorem length_others (z : ZSet JobId) (self : JobId) :
    z.card = (others z self).length + if self ∈ z.members then 1 else 0 := by
  have hmembers : z.members.length = z.card := List.length_map _
  have herase : (others z self).length = (z.members.erase self).length := by
    have hnd : z.members.Nodup := z.nodup
    rw [← List.length_map Prod.snd, others_map, hnd.erase_eq_filter]
    refine congrArg List.length (List.filter_congr fun x _ => ?_)
    by_cases hx : x = self <;> simp [hx]
  rw [herase]
  split
  · next hin =>
    have hpos := List.length_pos_of_mem hin
    rw [List.length_erase_of_mem hin]
    omega
  · next hout => rw [List.erase_of_not_mem hout, hmembers, Nat.add_zero]

/-- How many entries are beyond the newest. -/
def surplusOthers (keep : Option Nat) (l : List (ℤ × JobId)) : Nat :=
  match keep with
  | some n => l.length - (n - 1)
  | none => 0

theorem newest_eq (keep : Option Nat) (l : List (ℤ × JobId)) : newest keep l = l.drop (surplusOthers keep l) := by
  cases keep <;> rfl

/-- What passes a test that the first `e` entries pass, or is not behind the first `b`, is among the first. -/
theorem filter_or_drop {l : List (ℤ × JobId)} (hnd : l.Nodup) {p : ℤ × JobId → Bool} {e : Nat}
    (hp : l.filter p = l.take e) (b : Nat) : l.filter (fun x => p x ∨ x ∉ l.drop b) = l.take (max e b) := by
  have hsub : ∀ x ∈ l, (p x = true ↔ x ∈ l.take e) := by
    intro x hx
    rw [← hp, List.mem_filter]
    exact ⟨fun h => ⟨hx, h⟩, fun h => h.2⟩
  have hsplit := List.nodup_append'.mp (by rwa [List.take_append_drop] : (l.take (max e b) ++ l.drop (max e b)).Nodup)
  have hiff : ∀ x ∈ l, (x ∉ l.drop b ↔ x ∈ l.take b) := by
    intro x hx
    have hb := List.nodup_append'.mp (by rwa [List.take_append_drop] : (l.take b ++ l.drop b).Nodup)
    constructor
    · intro hd
      rw [← List.take_append_drop b l, List.mem_append] at hx
      exact hx.resolve_right hd
    · exact fun ht hd => hb.2.2 ht hd
  have hmem : ∀ x ∈ l, (p x = true ∨ x ∉ l.drop b ↔ x ∈ l.take (max e b)) := by
    intro x hx
    rw [hsub x hx, hiff x hx]
    constructor
    · rintro (h | h)
      · exact List.take_subset_take_left l (le_max_left e b) h
      · exact List.take_subset_take_left l (le_max_right e b) h
    · intro h
      rcases le_total e b with hle | hle
      · rw [max_eq_right hle] at h
        exact Or.inr h
      · rw [max_eq_left hle] at h
        exact Or.inl h
  calc l.filter (fun x => p x ∨ x ∉ l.drop b)
      = l.filter (fun x => x ∈ l.take (max e b)) :=
        List.filter_congr fun x hx => decide_eq_decide.mpr (hmem x hx)
    _ = l.take (max e b) := by
        conv_lhs => rw [← List.take_append_drop (max e b) l, List.filter_append]
        rw [List.take_append_drop, List.filter_eq_self.mpr (fun x hx => decide_eq_true hx),
          List.filter_eq_nil_iff.mpr (fun x hx => by simpa using fun h => hsplit.2.2 h hx), List.append_nil]

/-- How many entries of other jobs are over age. -/
def overAgeCount (z : ZSet JobId) (self : JobId) (age : Option Nat) (now : ℤ) : Nat :=
  (others z self).countP (fun e => overAge age now e.1)

theorem filter_overAge (z : ZSet JobId) (self : JobId) (age : Option Nat) (now : ℤ) :
    (others z self).filter (fun e => overAge age now e.1) = (others z self).take (overAgeCount z self age now) :=
  ZSet.filter_eq_take (z.rem self) (overAge_mono age now)

/-- **What is due is at the beginning.** -/
theorem due_eq (z : ZSet JobId) (self : JobId) (age keep : Option Nat) (now : ℤ) :
    due z self age keep now = (z.members.filter (· ≠ self)).take
      (max (overAgeCount z self age now) (surplusOthers keep (others z self))) := by
  unfold due
  rw [newest_eq, filter_or_drop (nodup_others z self).of_map (filter_overAge z self age now), List.map_take, others_map]

theorem nodup_due (z : ZSet JobId) (self : JobId) (age keep : Option Nat) (now : ℤ) :
    (due z self age keep now).Nodup := by
  rw [due_eq]
  exact (z.nodup.filter _).sublist (List.take_sublist _ _)

theorem mem_due {v : JobId} (h : v ∈ due z self age keep now) : v ≠ self ∧ v ∈ z.members := by
  rw [due_eq] at h
  have hin := List.mem_filter.mp (List.mem_of_mem_take h)
  exact ⟨by simpa using hin.2, hin.1⟩

end Due

/-! ## The two passes -/

/-- Leaving one value out of a beginning that is one longer. -/
theorem take_filter_ne {l : List JobId} (hnd : l.Nodup) (x : JobId) (k : Nat) :
    ((l.take (k + 1)).filter (· ≠ x)).take k = (l.filter (· ≠ x)).take k := by
  induction l generalizing k with
  | nil => rfl
  | cons a l ih =>
    rw [List.nodup_cons] at hnd
    by_cases ha : a = x
    · -- the rest does not contain it again
      subst ha
      have hrest : l.filter (· ≠ a) = l :=
        List.filter_eq_self.mpr (fun y hy => decide_eq_true fun hya => hnd.1 (hya ▸ hy))
      have hfirst : (l.take k).filter (· ≠ a) = l.take k :=
        List.filter_eq_self.mpr (fun y hy => decide_eq_true fun hya => hnd.1 (hya ▸ List.mem_of_mem_take hy))
      simp only [List.take_succ_cons, ne_eq, not_true_eq_false, decide_false, Bool.false_eq_true, not_false_eq_true,
        List.filter_cons_of_neg]
      rw [hrest, hfirst, List.take_take, min_self]
    · cases k with
      | zero => simp
      | succ k =>
        rw [List.take_succ_cons, List.filter_cons_of_pos (by simpa using ha), List.filter_cons_of_pos (by simpa using ha),
          List.take_succ_cons, List.take_succ_cons, ih hnd.2]

section Passes

variable {self : JobId} {want : Nat}

/-- **The walk of the count pass**: it appends the first `want` entries of others that are not there yet, up to the
cap. -/
theorem countVictims_eq : ∀ {l : List JobId} {counted : Nat} {acc : List JobId}, l.Nodup →
    acc.length ≤ retentionPruneCap → countVictims self want l counted acc =
      (acc ++ ((l.filter (· ≠ self)).take (want - counted)).filter (· ∉ acc)).take retentionPruneCap
  | [], counted, acc, _, hacc => by simp [countVictims, List.take_of_length_le hacc]
  | v :: vs, counted, acc, hnd, hacc => by
    rw [List.nodup_cons] at hnd
    unfold countVictims
    split
    · next hstop =>
      rcases hstop with hstop | hstop
      · rw [Nat.sub_eq_zero_of_le hstop, List.take_zero, List.filter_nil, List.append_nil, List.take_of_length_le hacc]
      · rw [List.take_append_of_le_length hstop, List.take_of_length_le hacc]
    next hgo =>
    rw [not_or, Nat.not_le, Nat.not_le] at hgo
    split
    · next hself =>
      rw [countVictims_eq hnd.2 hacc, List.filter_cons_of_neg (by simpa using hself)]
    next hself =>
    have hsub : want - counted = (want - (counted + 1)) + 1 := by omega
    rw [List.filter_cons_of_pos (by simpa using hself), hsub, List.take_succ_cons]
    split
    · next hin =>
      rw [countVictims_eq hnd.2 hacc, List.filter_cons_of_neg (by simpa using hin)]
    · next hnew =>
      have hlen : (acc ++ [v]).length ≤ retentionPruneCap := by
        rw [List.length_append, List.length_singleton]
        exact hgo.2
      rw [countVictims_eq hnd.2 hlen, List.filter_cons_of_pos (by simpa using hnew), List.append_assoc,
        List.singleton_append]
      congr 3
      refine List.filter_congr (fun y hy => ?_)
      have hyv : y ≠ v := fun h => hnd.1 (h ▸ List.mem_of_mem_filter (List.mem_of_mem_take hy))
      simp [hyv]

variable {s : Store} {nq : ZKey} {age keep : Option Nat} {now : ℤ}

/-- The finalizing job is never over age, so the age pass takes the first entries of the others. -/
theorem agedVictims_eq (hself : ∀ sc, s.zscore nq self = some sc → sc = now) :
    agedVictims s self nq age now = ((s.zsets nq).members.filter (· ≠ self)).take
      (min retentionPruneCap (overAgeCount (s.zsets nq) self age now)) := by
  cases age with
  | none => simp [agedVictims, overAgeCount, overAge]
  | some a =>
    have hpass : ((s.zsets nq).entries.filter (fun e => overAge (some a) now e.1)).map Prod.snd =
        ((s.zsets nq).members.filter (· ≠ self)).take (overAgeCount (s.zsets nq) self (some a) now) := by
      rw [← others_map, ← List.map_take, ← filter_overAge, others, List.filter_filter]
      congr 1
      refine List.filter_congr (fun e he => ?_)
      by_cases hexp : overAge (some a) now e.1
      · have hne : e.2 ≠ self := by
          rintro rfl
          have := hself e.1 (ZSet.mem_entries_iff.mp he)
          simp only [overAge, decide_eq_true_eq] at hexp
          omega
        simp [hexp, hne]
      · simp [hexp]
    have hfirst : ∀ v ∈ ((s.zsets nq).members.filter (· ≠ self)).take
        (min retentionPruneCap (overAgeCount (s.zsets nq) self (some a) now)), decide (v ≠ self) = true :=
      fun v hv => (List.mem_filter.mp (List.mem_of_mem_take hv)).2
    rw [agedVictims, ZSet.rangeByScore]
    have hlocal : ((s.zsets nq).entries.filter (fun e => e.1 < now - a * 1000)).map Prod.snd =
        ((s.zsets nq).entries.filter (fun e => overAge (some a) now e.1)).map Prod.snd := rfl
    rw [hlocal, hpass, List.take_take, List.filter_eq_self.mpr hfirst]

/-- **The victims are the first entries that are due.** The finalizing job is in the set unless the rule keeps
nothing. -/
theorem retentionVictims_eq (hself : ∀ sc, s.zscore nq self = some sc → sc = now)
    (hin : ∀ n, keep = some n → (self ∈ (s.zsets nq).members ↔ n ≠ 0)) :
    retentionVictims s self nq age keep now = (due (s.zsets nq) self age keep now).take retentionPruneCap := by
  have hnd : ((s.zsets nq).members.filter (· ≠ self)).Nodup := (s.zsets nq).nodup.filter _
  have hlen : ((s.zsets nq).members.filter (· ≠ self)).length = (others (s.zsets nq) self).length := by
    rw [← others_map, List.length_map]
  have hexp : overAgeCount (s.zsets nq) self age now ≤ (others (s.zsets nq) self).length := List.countP_le_length
  rw [due_eq, List.take_take]
  unfold retentionVictims
  dsimp only
  rw [agedVictims_eq hself]
  cases keep with
  | none => simp [surplusOthers]
  | some n =>
    dsimp only
    have hsurplus : (s.zsets nq).card - n = surplusOthers (some n) (others (s.zsets nq) self) := by
      have hone := length_others (s.zsets nq) self
      simp only [hin n rfl] at hone
      dsimp only [surplusOthers]
      split at hone <;> omega
    rw [← hsurplus]
    generalize hO : (s.zsets nq).members.filter (· ≠ self) = O at hnd hlen
    generalize overAgeCount (s.zsets nq) self age now = e at hexp
    rw [List.length_take, hlen]
    split
    · next hgo =>
      have haged : min retentionPruneCap e = e := by omega
      have hmembers : (s.zsets nq).members.Nodup := (s.zsets nq).nodup
      rw [haged, countVictims_eq ((s.zsets nq).nodup_range _ _) (by rw [List.length_take]; omega), Nat.sub_zero,
        ZSet.range, List.drop_zero, take_filter_ne hmembers, hO, take_union hnd, List.take_take]
      congr 1
      omega
    · next hstop =>
      congr 1
      omega

end Passes

/-! ## The victims -/

section Prune

variable {s : Store} {st : JobState} {z : ZKey} {m : String → ZKey} {q : String} {vs : List JobId} {v : JobId}

theorem Final.prescribed_mirror (hf : Final st z m) {x : JobHash} (h : m q ∈ x.prescribed) :
    x.state = some st ∧ x.queue.getD "" = q := by
  unfold JobHash.prescribed at h
  cases hx : x.state with
  | none => simp [hx] at h
  | some st' =>
    simp only [hx] at h
    cases hf <;> cases st' <;> by_cases hg : x.groupKey.getD "" = "" <;> simp [Redis.homeKeys, hg] at h ⊢ <;>
      exact h.symm

/-- The members of a mirror are jobs of its state and queue, and in the set of the state too. -/
theorem Store.AgreesAt.mirrored (hs : s.AgreesAt v) (hf : Final st z m) (hv : v ∈ (s.zsets (m q)).members) :
    (s.hash v).state = some st ∧ given (s.hash v).queue = some q ∧ v ∈ (s.zsets z).members := by
  obtain ⟨x, hx⟩ := Option.isSome_iff_exists.mp (hs.hashed (m q) hv)
  have hhash : s.hash v = x := by rw [Store.hash, hx]; rfl
  obtain ⟨hst, hq⟩ := hf.prescribed_mirror ((hs.prescribed x hx (m q)).mp hv)
  refine ⟨hhash ▸ hst, given_eq_some.mpr ⟨hhash ▸ hq, hq ▸ (hs.named x hx).1⟩, (hs.prescribed x hx z).mpr ?_⟩
  unfold JobHash.prescribed
  rw [hst]
  cases hf <;> exact List.mem_cons_self

/-- Pruning a job of the queue is the teardown of a cleanup. -/
theorem pruneJob_eq (hq : given (s.hash v).queue = some q) : pruneJob z (m q) s v = cleanupOne z m s v := by
  unfold pruneJob cleanupOne
  dsimp only
  rw [hq]
  rfl

theorem pruneAll_eq : ∀ {vs : List JobId} {s : Store}, vs.Nodup → (∀ v ∈ vs, given (s.hash v).queue = some q) →
    vs.foldl (pruneJob z (m q)) s = vs.foldl (cleanupOne z m) s
  | [], _, _, _ => rfl
  | v :: vs, s, hnd, hq => by
    rw [List.nodup_cons] at hnd
    rw [List.foldl_cons, List.foldl_cons, pruneJob_eq (hq v List.mem_cons_self)]
    refine pruneAll_eq hnd.2 (fun w hw => ?_)
    have hne : w ≠ v := fun h => hnd.1 (h ▸ hw)
    have hcell : (cleanupOne z m s v).cell w = s.cell w := by rw [cell_cleanupOne, Function.update_of_ne hne]
    have hhash : (cleanupOne z m s v).hash w = s.hash w := congrArg JobCell.fields hcell
    rw [hhash]
    exact hq w (List.mem_cons_of_mem _ hw)

/-- **The pruned jobs leave no trace.** -/
theorem pruneAll_swept (hf : Final st z m) (hs : ∀ v ∈ vs, s.AgreesAt v) (hnd : vs.Nodup)
    (hv : ∀ v ∈ vs, v ∈ (s.zsets (m q)).members) : Swept s (vs.foldl (pruneJob z (m q)) s) vs := by
  rw [pruneAll_eq hnd (fun v hv' => ((hs v hv').mirrored hf (hv v hv')).2.1)]
  exact cleanupAll_swept hf vs hs hnd (fun v hv' => ((hs v hv').mirrored hf (hv v hv')).2.2)

theorem pruneAll_entries (z nq : ZKey) (hne : z ≠ nq) (s : Store) (vs : List JobId) :
    ((vs.foldl (pruneJob z nq) s).zsets nq).entries = (s.zsets nq).entries.filter (fun e => e.2 ∉ vs) := by
  refine rem_all_entries (pruneJob z nq) (fun s => s.zsets nq) (fun s v => ?_) vs s
  obtain ⟨j, e, sets, un, h⟩ := deleteJob_keys s v
  unfold pruneJob
  rw [h]
  simp [Store.zrem, hne.symm]

end Prune

/-! ## The two verdicts that finalize -/

/-- How a worker ends a job for good. -/
inductive Ending
  | completed (result : String)
  | failed (error : String)

namespace Ending

def state : Ending → JobState
  | completed _ => .completed
  | failed _ => .failed

def zset : Ending → ZKey
  | completed _ => .completed
  | failed _ => .failed

def mirror : Ending → String → ZKey
  | completed _ => .nqcompleted
  | failed _ => .nqfailed

/-- The rule that counts. -/
def rule (h : JobHash) : Ending → Option RetentionRule
  | completed _ => h.removeOnComplete
  | failed _ => h.removeOnFail

/-- The verdict. -/
def call (s : Store) (id : JobId) (w : WorkerId) (now : ℤ) : Ending → Store
  | completed result => (fnComplete s id w now result).1
  | failed error => (fnFail s id w now error (-1)).1

/-- What the verdict writes in the HASH. -/
def fields (now : ℤ) (h : JobHash) : Ending → JobHash
  | completed result => { h with state := some .completed, completedAt := some now, result := some result }
  | failed _ => { h with state := some .failed, failedAt := some now }

/-- The store a verdict gives to `apply_retention`: the job has left the running sets and lost its reservation, and
its HASH says how it ended. -/
def marked (s : Store) (id : JobId) (now : ℤ) (e : Ending) : Store :=
  let s := match e with
    | completed _ => s
    | failed error => s.pushError id error
  let h := s.hash id
  releaseUnique ((leaveRunning s id h.groupKey h.queue).hset id (fun h => e.fields now h)) id

/-- ... and the one in which the victims are chosen: the job is recorded in the sets of its state, unless the rule
keeps nothing. -/
def recorded (s : Store) (id : JobId) (q : String) (keep : Option Nat) (now : ℤ) (e : Ending) : Store :=
  if keep = some 0 then e.marked s id now else zaddBoth (e.marked s id now) e.zset (some (e.mirror q)) now id

end Ending

section Ending

variable {s : Store} {e : Ending} {id : JobId} {w : WorkerId} {q : String} {age keep : Option Nat} {now : ℤ} {x : JobHash}

theorem Ending.final (e : Ending) : Final e.state e.zset e.mirror := by
  cases e
  · exact .completed
  · exact .failed

theorem Ending.zset_ne_mirror (e : Ending) (q : String) : e.zset ≠ e.mirror q := by cases e <;> nofun

/-- A verdict of the owner is a mark and a finalization. -/
theorem Ending.call_eq (ho : s.owner id = some w) (e : Ending) (now : ℤ) :
    e.call s id w now =
      finalize (e.marked s id now) id e.zset ((given (s.hash id).queue).map e.mirror) (e.rule (s.hash id)) now := by
  have hneg : ¬ (s.hash id).lockedBy ≠ some w := not_not.mpr ho
  cases e with
  | completed result =>
    change (fnComplete s id w now result).1 = _
    rw [fnComplete, if_neg hneg]
    rfl
  | failed error =>
    change (fnFail s id w now error (-1)).1 = _
    rw [fnFail, if_neg hneg]
    rfl

/-- `apply_retention` with a rule of ages and counts. -/
theorem applyRetention_rule (s : Store) (id : JobId) (z k : ZKey) (age keep : Option Nat) (now : ℤ) :
    applyRetention s id z (some k) (some (.rule age keep)) now =
      let s := if keep = some 0 then s else zaddBoth s z (some k) now id
      ((retentionVictims s id k age keep now).foldl (pruneJob z k) s, decide (keep = some 0)) := by
  unfold applyRetention
  by_cases hn : age = none ∧ keep = none
  · obtain ⟨rfl, rfl⟩ := hn
    simp [retentionVictims, agedVictims]
  · simp [hn]

theorem Ending.cell_marked_of_ne {v : JobId} (h : v ≠ id) (e : Ending) (now : ℤ) :
    (e.marked s id now).cell v = s.cell v := by
  cases e <;> simp [Ending.marked, Function.update_of_ne h]

/-- Leaving the running sets changes the scores only. -/
theorem JobCell.leaveRunning_keeps (c : JobCell) (g q : Option String) :
    (c.leaveRunning g q).hash = c.hash ∧ (c.leaveRunning g q).member = c.member := by
  unfold JobCell.leaveRunning
  cases given g <;> cases given q <;> exact ⟨rfl, rfl⟩

/-- The cell of the job itself. -/
theorem Ending.cell_marked (e : Ending) (s : Store) (id : JobId) (now : ℤ) :
    ((e.marked s id now).cell id).hash = some (e.fields now (s.hash id)) ∧
      ((e.marked s id now).cell id).member = (s.cell id).member ∧
      ((e.marked s id now).cell id).score =
        ((s.cell id).leaveRunning (s.hash id).groupKey (s.hash id).queue).score := by
  have hcell : ∃ c : JobCell, c.hash = (s.cell id).hash ∧ c.member = (s.cell id).member ∧ c.score = (s.cell id).score ∧
      (e.marked s id now).cell id =
        (c.leaveRunning (s.hash id).groupKey (s.hash id).queue).hset (fun h => e.fields now h) := by
    cases e with
    | completed result => exact ⟨s.cell id, rfl, rfl, rfl, by simp [Ending.marked]⟩
    | failed error =>
      have hpush : (s.pushError id error).hash id = s.hash id := rfl
      exact ⟨(s.cell id).pushError error, rfl, rfl, rfl, by simp [Ending.marked, hpush]⟩
  obtain ⟨c, hhash, hmember, hscore, hc⟩ := hcell
  obtain ⟨hh, hm⟩ := c.leaveRunning_keeps (s.hash id).groupKey (s.hash id).queue
  rw [hc]
  refine ⟨?_, hm.trans hmember, ?_⟩
  · rw [JobCell.hset, JobCell.fields, hh, hhash]
    rfl
  · funext k
    change (c.leaveRunning _ _).score k = _
    rw [JobCell.leaveRunning_score, JobCell.leaveRunning_score, hscore]

/-- A finalizing job is in no sorted set. -/
theorem Ending.score_marked (hs : s.AgreesAt id) (hx : s.job id = some x) (hst : x.state = some .running) (e : Ending)
    (now : ℤ) (k : ZKey) : ((e.marked s id now).cell id).score k = none := by
  have hhash : s.hash id = x := by rw [Store.hash, hx]; rfl
  rw [(e.cell_marked s id now).2.2, JobCell.leaveRunning_score]
  split
  · rfl
  next hout =>
  -- it was in the running sets only
  by_contra hin
  have hmem : k ∈ x.prescribed :=
    (hs.prescribed x hx k).mp (ZSet.mem_members.mpr (Option.isSome_iff_ne_none.mpr hin))
  simp only [JobHash.prescribed, hst, homeKeys] at hmem
  rw [hhash, not_or, not_or] at hout
  have hq := given_eq_some.mpr ⟨rfl, (hs.named x hx).1⟩
  split at hmem
  · next hg =>
    simp only [List.mem_cons, List.not_mem_nil, or_false] at hmem
    rcases hmem with rfl | rfl
    · exact hout.1 rfl
    · exact hout.2.2 (by rw [hq]; rfl)
  · next hg =>
    have hgiven := given_eq_some.mpr ⟨rfl, hg⟩
    simp only [List.mem_cons, List.not_mem_nil, or_false] at hmem
    rcases hmem with rfl | rfl | rfl
    · exact hout.1 rfl
    · exact hout.2.2 (by rw [hq]; rfl)
    · exact hout.2.1 (by rw [hgiven]; rfl)

theorem Ending.cell_recorded_of_ne {v : JobId} (h : v ≠ id) (e : Ending) (q : String) (keep : Option Nat) (now : ℤ) :
    (e.recorded s id q keep now).cell v = s.cell v := by
  unfold Ending.recorded
  split
  · exact e.cell_marked_of_ne h now
  · rw [cell_zaddBoth, Function.update_of_ne h]
    exact e.cell_marked_of_ne h now

/-- The entry of the finalizing job: now, unless the rule keeps nothing. -/
theorem Ending.score_recorded (hs : s.AgreesAt id) (hx : s.job id = some x) (hst : x.state = some .running) (e : Ending)
    (q : String) (keep : Option Nat) (now : ℤ) {k : ZKey} (hk : k = e.zset ∨ k = e.mirror q) :
    (e.recorded s id q keep now).zscore k id = if keep = some 0 then none else some now := by
  have hscore := fun k => e.score_marked hs hx hst now k
  unfold Ending.recorded
  split
  · exact hscore k
  · rw [← Store.cell_score, cell_zaddBoth, Function.update_self, JobCell.zaddBoth_score, if_pos]
    exact hk.imp_right (fun h => congrArg some h.symm)

/-! ## The result -/

/-- The jobs that the rule says to prune when the verdict comes. -/
def Ending.due (s : Store) (id : JobId) (q : String) (age keep : Option Nat) (now : ℤ) (e : Ending) : List JobId :=
  Redis.due ((e.recorded s id q keep now).zsets (e.mirror q)) id age keep now

/-- ... as many as one verdict prunes. -/
def Ending.victims (s : Store) (id : JobId) (q : String) (age keep : Option Nat) (now : ℤ) (e : Ending) : List JobId :=
  (e.due s id q age keep now).take retentionPruneCap

/-- What a verdict does to a job of the queue `q` with a rule; `r` is what `apply_retention` returns. -/
structure Retained (s : Store) (id : JobId) (w : WorkerId) (q : String) (age keep : Option Nat) (now : ℤ) (e : Ending)
    (r : Store × Bool) : Prop where
  /-- The verdict tears the job down when `apply_retention` says so. -/
  call : e.call s id w now = if r.2 then deleteJob (zremBoth r.1 e.zset (some (e.mirror q)) id) id else r.1
  /-- The victims are other jobs of this queue and final state. -/
  scope : ∀ v ∈ e.victims s id q age keep now, v ≠ id ∧ (s.hash v).state = some e.state ∧ (s.hash v).queue = some q
  capped : (e.victims s id q age keep now).length ≤ retentionPruneCap
  /-- They leave no trace, and no other job is touched. -/
  swept : Swept (e.recorded s id q keep now) r.1 (e.victims s id q age keep now)
  /-- The set of the queue keeps the other entries. -/
  left : (r.1.zsets (e.mirror q)).entries =
    ((e.recorded s id q keep now).zsets (e.mirror q)).entries.filter (fun x => x.2 ∉ e.victims s id q age keep now)
  /-- Up to the cap, nothing that is due remains. -/
  none_due : (e.due s id q age keep now).length ≤ retentionPruneCap →
    ∀ v ∈ e.due s id q age keep now, v ∉ (r.1.zsets (e.mirror q)).members
  /-- A rule of a count alone leaves so many entries. -/
  counted : ∀ n, age = none → keep = some n → 1 ≤ n → (e.due s id q age keep now).length ≤ retentionPruneCap →
    (r.1.zsets (e.mirror q)).card = min n ((e.recorded s id q keep now).zsets (e.mirror q)).card
  dropped : r.2 = true ↔ keep = some 0
  /-- A dropped job leaves no trace. -/
  gone : keep = some 0 → ((e.call s id w now).cell id).Gone True ∧
    (∀ u, u ≠ "" → (s.hash id).uniqueKey = some u → (e.call s id w now).unique u ≠ some id) ∧
    (s.Reserved → ∀ u, u ≠ "" → (e.call s id w now).unique u ≠ some id)
  /-- Any other is recorded in the sets of its state. -/
  kept : keep ≠ some 0 → (e.call s id w now).zscore e.zset id = some now ∧
    (e.call s id w now).zscore (e.mirror q) id = some now

/-- How many entries a rule of a count leaves. -/
theorem length_left {z : ZSet JobId} {self : JobId} {n : Nat} (hn : 1 ≤ n) (hin : self ∈ z.members) (now : ℤ) :
    (z.entries.filter (fun x => x.2 ∉ due z self none (some n) now)).length = min n z.card := by
  have hlen := length_others z self
  rw [if_pos hin] at hlen
  have hdue : (due z self none (some n) now).length = z.card - n := by
    rw [due_eq, ← others_map, List.length_take, List.length_map]
    have hzero : overAgeCount z self none now = 0 := by simp [overAgeCount, overAge]
    rw [hzero]
    dsimp only [surplusOthers]
    omega
  have hnd : (z.entries.map Prod.snd).Nodup := z.nodup
  have hsplit : (z.entries.map Prod.snd).filter (· ∉ due z self none (some n) now) =
      (z.entries.filter (fun x => x.2 ∉ due z self none (some n) now)).map Prod.snd := List.filter_map ..
  have hrest : ((z.entries.map Prod.snd).filter (· ∈ due z self none (some n) now)).length =
      (due z self none (some n) now).length := by
    refine ((List.perm_ext_iff_of_nodup (hnd.filter _) (nodup_due z self none (some n) now)).mpr fun v => ?_).length_eq
    rw [List.mem_filter, decide_eq_true_eq]
    exact ⟨fun h => h.2, fun h => ⟨(mem_due h).2, h⟩⟩
  have htotal := List.length_eq_length_filter_add (l := z.entries.map Prod.snd)
    (fun v => decide (v ∈ due z self none (some n) now))
  have hnot : (z.entries.map Prod.snd).filter (fun v => !decide (v ∈ due z self none (some n) now)) =
      (z.entries.map Prod.snd).filter (· ∉ due z self none (some n) now) :=
    List.filter_congr fun v _ => by simp
  rw [hrest, hdue, hnot, hsplit, List.length_map, List.length_map] at htotal
  have hcard : z.entries.length = z.card := rfl
  omega

/-- The other jobs agree as before. -/
theorem Ending.agreesAt_recorded {v : JobId} (hs : s.Agrees) (hv : v ≠ id) (e : Ending) (q : String)
    (keep : Option Nat) (now : ℤ) : (e.recorded s id q keep now).AgreesAt v :=
  (hs.at v).of_cell (e.cell_recorded_of_ne hv q keep now)

/-- Tearing the finalizing job down, whatever has happened to the others. -/
theorem Ending.torn_down (hs : s.AgreesAt id) (hx : s.job id = some x) (hst : x.state = some .running) (e : Ending)
    {y : Store} (hy : y.cell id = (e.marked s id now).cell id) (z : ZKey) (o : Option ZKey) :
    ((deleteJob (zremBoth y z o id) id).cell id).Gone True := by
  have hhash : s.hash id = x := by rw [Store.hash, hx]; rfl
  obtain ⟨hh, hm, -⟩ := e.cell_marked s id now
  have hscore := e.score_marked hs hx hst now
  rw [← hy] at hh hm hscore
  have hcell : (deleteJob (zremBoth y z o id) id).cell id = ((y.cell id).zremBoth z o).deleted := by simp
  have hboth : ((y.cell id).zremBoth z o).hash = (y.cell id).hash ∧
      ((y.cell id).zremBoth z o).member = (y.cell id).member := by cases o <;> exact ⟨rfl, rfl⟩
  have hnames : ∀ k, (e.fields now x).Carries k ↔ x.Carries k := by
    intro k
    cases e <;> cases k <;> rfl
  have hnamed : (e.fields now x).queue.getD "" ≠ "" ∧ (e.fields now x).kind.getD "" ≠ "" := by
    cases e <;> exact hs.named x hx
  rw [hhash] at hh
  rw [hcell]
  refine ⟨rfl, fun k _ => ?_, fun k _ => ?_, rfl⟩
  · refine deleted_member (hboth.1.trans hh) hnamed (fun k => ?_) k
    rw [hboth.2, hm, hboth.1, hh]
    refine (hs.indexed k).trans ?_
    rw [hx]
    constructor
    · rintro ⟨_, hx', hc⟩
      cases hx'
      exact ⟨_, rfl, (hnames k).mpr hc⟩
    · rintro ⟨_, hx', hc⟩
      cases hx'
      exact ⟨_, rfl, (hnames k).mp hc⟩
  · change ((y.cell id).zremBoth z o).score k = none
    rw [JobCell.zremBoth_score, hscore, ite_self]

/-- Dropping a reservation makes none. -/
theorem dropUniqueIfOwner_le {s : Store} {o : Option String} {id i : JobId} {u : String}
    (h : (dropUniqueIfOwner s o id).unique u = some i) : s.unique u = some i := by
  unfold dropUniqueIfOwner at h
  split at h
  · exact h
  split at h
  · next k _ _ =>
    by_cases hk : u = k
    · simp [Store.delUnique, hk] at h
    · simpa [Store.delUnique, hk] using h
  · exact h

theorem released_unique (y : Store) (id : JobId) (g q : Option String) {f : JobHash → JobHash}
    (hf : ∀ h, (f h).uniqueKey = h.uniqueKey) :
    (releaseUnique ((leaveRunning y id g q).hset id f) id).unique = (dropUniqueIfOwner y (y.hash id).uniqueKey id).unique := by
  have hleft : (leaveRunning y id g q).hash id = y.hash id := by
    unfold leaveRunning
    cases given g <;> cases given q <;> rfl
  have hset : ((leaveRunning y id g q).hset id f).hash id = f ((leaveRunning y id g q).hash id) := by
    rw [← Store.cell_fields, Store.cell_hset, Function.update_self]
    rfl
  rw [releaseUnique, hset, hf, hleft]
  exact dropUniqueIfOwner_congr (by simp) _ _

theorem Ending.marked_unique (e : Ending) (s : Store) (id : JobId) (now : ℤ) :
    (e.marked s id now).unique = (dropUniqueIfOwner s (s.hash id).uniqueKey id).unique := by
  cases e with
  | completed result => exact released_unique s id _ _ (fun _ => rfl)
  | failed error =>
    have hpush : (s.pushError id error).unique = s.unique := rfl
    exact (released_unique (f := fun h => (Ending.failed error).fields now h) (s.pushError id error) id
      (s.hash id).groupKey (s.hash id).queue (fun _ => rfl)).trans (dropUniqueIfOwner_congr hpush _ _)

/-- The finalizing job has no reservation left. -/
theorem Ending.marked_released (e : Ending) (now : ℤ) {u : String} (hu : u ≠ "")
    (hkey : (s.hash id).uniqueKey = some u) : (e.marked s id now).unique u ≠ some id := by
  rw [e.marked_unique, hkey, dropUniqueIfOwner, given_some hu]
  dsimp only
  split
  · simp [Store.delUnique]
  · next ho => exact fun h => ho (Or.inl h)

theorem Ending.marked_unreserved (hr : s.Reserved) (e : Ending) (now : ℤ) {u : String} (hu : u ≠ "") :
    (e.marked s id now).unique u ≠ some id := by
  intro h
  have hs := h
  rw [e.marked_unique] at hs
  obtain ⟨x, st, hx, hkey, -⟩ := (hr.owner u hu id).mp (dropUniqueIfOwner_le hs)
  have hhash : s.hash id = x := by rw [Store.hash, hx]; rfl
  exact e.marked_released now hu (hhash ▸ hkey) h

/-- The finalizing job is in the mirror set unless the rule keeps nothing. -/
theorem Ending.recorded_mem (hs : s.Agrees) (hx : s.job id = some x) (hst : x.state = some .running) (e : Ending) (q : String)
    {n : Nat} (hn : keep = some n) (now : ℤ) :
    id ∈ ((e.recorded s id q keep now).zsets (e.mirror q)).members ↔ n ≠ 0 := by
  have hsc : ((e.recorded s id q keep now).zsets (e.mirror q)).score? id = if keep = some 0 then none else some now :=
    e.score_recorded (hs.at id) hx hst q keep now (Or.inr rfl)
  rw [ZSet.mem_members, hsc, hn]
  by_cases hn0 : n = 0 <;> simp [hn0]

/-- `apply_retention` prunes the victims from the store in which the job is recorded. -/
theorem Ending.applyRetention_eq (hs : s.Agrees) (hx : s.job id = some x) (hst : x.state = some .running) (e : Ending)
    (q : String) (age keep : Option Nat) (now : ℤ) :
    applyRetention (e.marked s id now) id e.zset (some (e.mirror q)) (some (.rule age keep)) now =
      ((e.victims s id q age keep now).foldl (pruneJob e.zset (e.mirror q)) (e.recorded s id q keep now),
        decide (keep = some 0)) := by
  have hself : ∀ sc, (e.recorded s id q keep now).zscore (e.mirror q) id = some sc → sc = now := by
    intro sc hsc
    rw [e.score_recorded (hs.at id) hx hst q keep now (Or.inr rfl)] at hsc
    split at hsc
    · cases hsc
    · exact (Option.some.inj hsc).symm
  rw [applyRetention_rule]
  change ((retentionVictims (e.recorded s id q keep now) id (e.mirror q) age keep now).foldl _
    (e.recorded s id q keep now), _) = _
  rw [retentionVictims_eq hself fun n hn => e.recorded_mem hs hx hst q hn now]
  rfl

/-- A victim is another job of the mirror set. -/
theorem Ending.mem_victims {v : JobId} (hv : v ∈ e.victims s id q age keep now) :
    v ≠ id ∧ v ∈ ((e.recorded s id q keep now).zsets (e.mirror q)).members := mem_due (List.mem_of_mem_take hv)

/-- It has ended the same way on the same queue. -/
theorem Ending.victim_mirrored {v : JobId} (hs : s.Agrees) (hv : v ∈ e.victims s id q age keep now) :
    v ≠ id ∧ (s.hash v).state = some e.state ∧ (s.hash v).queue = some q := by
  obtain ⟨hne, hmirror⟩ := e.mem_victims hv
  obtain ⟨hstate, hqueue, -⟩ := (e.agreesAt_recorded hs hne q keep now).mirrored e.final hmirror
  have hsame : (e.recorded s id q keep now).hash v = s.hash v :=
    congrArg JobCell.fields (e.cell_recorded_of_ne hne q keep now)
  rw [hsame] at hstate hqueue
  refine ⟨hne, hstate, ?_⟩
  cases hqv : (s.hash v).queue with
  | none => simp [hqv] at hqueue
  | some q' =>
    rw [hqv] at hqueue
    exact congrArg some (given_eq_some.mp hqueue).1

end Ending

/-- Two jobs are completed; the third, still running, keeps the newest one. -/
def countedRun : List Op :=
  [.enqueue { kind := "mail", queue := "default" } 1000,
   .enqueue { kind := "mail", queue := "default" } 1000,
   .enqueue { kind := "mail", queue := "default", removeOnComplete := some (.rule none (some 1)) } 1000,
   .claim { batchSize := 3, worker := "w", now := 2000, queues := ["default"], kinds := ["mail"] },
   .complete 1 "w" 3000 "",
   .complete 2 "w" 4000 ""]

theorem countedRun_reached : (countedRun.foldl Op.apply Store.empty).Reached (Op.Ok True) := by
  refine run_of_guards countedRun (Reach.refl _) ⟨fun _ => ⟨by decide, by decide⟩, fun _ => ⟨by decide, by decide⟩,
    fun _ => ⟨by decide, by decide⟩, trivial, ?_, ?_, trivial⟩
  · intro _; decide
  · intro _; decide

end Eddyq.Redis
