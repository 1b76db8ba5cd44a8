import Eddyq.Redis.Reached

/-!
# Cleanup on Redis

What a cleanup is for: of each final state, the entries that are expired or beyond the newest `count` go, oldest first.
Both kinds are at the beginning of the set, so they are its first `surplus` entries.

* `cleanupVictims_eq`: one call takes the first `min b surplus`.
* `Swept s s' vs`: the jobs `vs` have left no trace, and nothing else has changed. It holds of one victim
  (`cleanupOne_swept`), it composes (`Swept.trans`), and so it holds of a call (`fnCleanup_swept`).
* `cleanupRounds` calls until every state comes back short of the limit; then no surplus is left (`cleanupRounds_left`).
-/

namespace Eddyq.Redis

open Eddyq.Lib

/-! ## The surplus -/

/-- Finalized longer ago than the age; a negative age is "no rule". -/
def agedOut (now age : ℤ) (score : ℤ) : Bool := 0 ≤ age && score < now - age * 1000

/-- How many entries are beyond the newest `count`; a negative count is "no rule". -/
def beyondCount (card : Nat) (count : ℤ) : Nat := if 0 ≤ count then ((card : ℤ) - count).toNat else 0

/-- How many entries are to go. -/
def surplus (z : ZSet JobId) (now age count : ℤ) : Nat :=
  max (z.entries.countP (fun e => agedOut now age e.1)) (beyondCount z.card count)

section Surplus

variable (z : ZSet JobId) (now age count : ℤ)

theorem agedOut_mono (a b : ℤ) (h : a ≤ b) (hb : agedOut now age b) : agedOut now age a := by
  simp only [agedOut, Bool.and_eq_true, decide_eq_true_eq] at hb ⊢
  omega

theorem countP_agedOut_le : z.entries.countP (fun e => agedOut now age e.1) ≤ z.members.length := by
  rw [ZSet.members, List.length_map]
  exact List.countP_le_length

/-- The expired entries are the first ones. -/
theorem rangeByScore_agedOut (limit : Nat) :
    z.rangeByScore (agedOut now age) limit =
      z.members.take (min limit (z.entries.countP (fun e => agedOut now age e.1))) := by
  rw [ZSet.rangeByScore, ZSet.filter_eq_take z (agedOut_mono now age), List.map_take, List.take_take]
  rfl

/-- The age pass. -/
theorem aged_eq (limit : Nat) :
    (if age ≥ 0 then z.rangeByScore (fun sc => sc < now - age * 1000) limit else []) =
      z.members.take (min limit (z.entries.countP (fun e => agedOut now age e.1))) := by
  rw [← rangeByScore_agedOut]
  unfold ZSet.rangeByScore agedOut
  by_cases h : age ≥ 0
  · simp [h]
  · simp [h]

/-- The count pass. -/
theorem counted_eq (limit : Nat) (hc : count ≥ 0) :
    (if min ((z.card : ℤ) - count) limit > 0 then z.range 0 (min ((z.card : ℤ) - count) limit).toNat else []) =
      z.members.take (min limit (beyondCount z.card count)) := by
  have hn : (min ((z.card : ℤ) - count) limit).toNat = min limit (beyondCount z.card count) := by
    rw [beyondCount, if_pos hc]
    omega
  rw [hn, ZSet.range, List.drop_zero]
  split
  · rfl
  · have hz : min limit (beyondCount z.card count) = 0 := by omega
    rw [hz, List.take_zero]

/-- The entries of a longer beginning that are not in a shorter one. -/
theorem take_union {l : List JobId} (hnd : l.Nodup) (m n : Nat) :
    l.take m ++ (l.take n).filter (· ∉ l.take m) = l.take (max m n) := by
  by_cases h : n ≤ m
  · have hnil : (l.take n).filter (· ∉ l.take m) = [] := by
      refine List.filter_eq_nil_iff.mpr (fun x hx => ?_)
      simpa using List.take_subset_take_left l h hx
    rw [hnil, List.append_nil, max_eq_left h]
  · have hsplit : l.take n = l.take m ++ (l.take n).drop m := by
      have := List.take_append_drop m (l.take n)
      rwa [List.take_take, min_eq_left (by omega), eq_comm] at this
    have hnd' := List.nodup_append'.mp (hsplit ▸ hnd.sublist (List.take_sublist n l))
    have hleft : (l.take m).filter (· ∉ l.take m) = [] := by simp [List.filter_eq_nil_iff]
    have hright : ((l.take n).drop m).filter (· ∉ l.take m) = (l.take n).drop m :=
      List.filter_eq_self.mpr (fun x hx => decide_eq_true fun hin => hnd'.2.2 hin hx)
    rw [max_eq_right (by omega), hsplit, List.filter_append, hleft, hright, List.nil_append]

/-- **The victims are the first `min b surplus` entries.** -/
theorem cleanupVictims_eq (limit : Nat) :
    cleanupVictims z now age count limit = z.members.take (min limit (surplus z now age count)) := by
  have hle := countP_agedOut_le z now age
  unfold cleanupVictims surplus
  dsimp only
  rw [aged_eq]
  generalize z.entries.countP (fun e => agedOut now age e.1) = e at hle
  have hlen : (z.members.take (min limit e)).length = min limit e := by
    rw [List.length_take]
    omega
  split
  · next hc =>
    rw [hlen] at hc
    rw [counted_eq z count limit hc.1, take_union (l := z.members) z.nodup, List.take_take]
    congr 1
    omega
  · next hc =>
    rw [hlen] at hc
    congr 1
    by_cases hcount : count ≥ 0
    · have : limit ≤ e := by
        by_contra hlt
        exact hc ⟨hcount, by omega⟩
      omega
    · rw [beyondCount, if_neg hcount]
      omega

end Surplus

/-! ## Sweeping -/

/-- The state and the indexes agree, and every job has a queue and a kind. -/
structure Store.Agrees (s : Store) : Prop extends s.Consistent where
  named : ∀ id h, s.job id = some h → h.queue.getD "" ≠ "" ∧ h.kind.getD "" ≠ ""

/-- The store of a line of named jobs agrees. -/
theorem Refines.agrees {s : Store} {A : Line} (hr : Refines True s A) : s.Agrees := by
  refine ⟨hr.consistent, fun id h hjob => ?_⟩
  rcases hr.cases id with ⟨-, hg⟩ | ⟨i, h', -, hjob', hhas, hh⟩
  · have hnone : s.job id = none := hg.hash
    rw [hnone] at hjob
    cases hjob
  · rw [hjob] at hjob'
    cases hjob'
    rw [hhas.queue, hhas.kind]
    exact hh.names trivial

/-- What the agreement says about one job. -/
structure Store.AgreesAt (s : Store) (id : JobId) : Prop where
  prescribed : ∀ h, s.job id = some h → ∀ k, id ∈ (s.zsets k).members ↔ k ∈ h.prescribed
  hashed : ∀ k, id ∈ (s.zsets k).members → (s.job id).isSome
  indexed : ∀ k, id ∈ s.sets k ↔ ∃ h, s.job id = some h ∧ h.Carries k
  named : ∀ h, s.job id = some h → h.queue.getD "" ≠ "" ∧ h.kind.getD "" ≠ ""

theorem Store.Agrees.at {s : Store} (hs : s.Agrees) (id : JobId) : s.AgreesAt id :=
  ⟨hs.prescribed id, hs.hashed id, hs.indexed id, hs.named id⟩

theorem mem_iff_of_cell {s s' : Store} {id : JobId} (h : s'.cell id = s.cell id) (k : ZKey) :
    id ∈ (s'.zsets k).members ↔ id ∈ (s.zsets k).members := by
  have hscore : s'.zscore k id = s.zscore k id := congrArg (fun c => c.score k) h
  rw [Store.zscore, Store.zscore] at hscore
  rw [ZSet.mem_members, ZSet.mem_members, hscore]

/-- It is a matter of the job's cell. -/
theorem Store.AgreesAt.of_cell {s s' : Store} {id : JobId} (h : s.AgreesAt id) (hc : s'.cell id = s.cell id) :
    s'.AgreesAt id := by
  have hjob : s'.job id = s.job id := congrArg JobCell.hash hc
  have hset : ∀ k, id ∈ s'.sets k ↔ id ∈ s.sets k := fun k => iff_of_eq (congrArg (fun c => c.member k) hc)
  refine ⟨fun x hx k => ?_, fun k hm => ?_, fun k => ?_, fun x hx => h.named x (hjob ▸ hx)⟩
  · rw [mem_iff_of_cell hc]
    exact h.prescribed x (hjob ▸ hx) k
  · rw [hjob]
    exact h.hashed k ((mem_iff_of_cell hc k).mp hm)
  · rw [hset, hjob]
    exact h.indexed k

/-- The jobs `vs` have been swept: no key mentions them, their own reservations are gone, and no other job has been
touched. A reservation goes with a job that carries its key, if it holds that job's id or the legacy `'1'`. -/
structure Swept (s s' : Store) (vs : List JobId) : Prop where
  gone : ∀ v ∈ vs, (s'.cell v).Gone True
  rest : ∀ id, id ∉ vs → s'.cell id = s.cell id
  own : ∀ v ∈ vs, ∀ u, u ≠ "" → (s.hash v).uniqueKey = some u → s'.unique u ≠ some v
  dropped : ∀ u, s'.unique u ≠ s.unique u → u ≠ "" ∧ s'.unique u = none ∧
    ∃ v ∈ vs, (s.hash v).uniqueKey = some u ∧ (s.unique u = some v ∨ s.unique u = some 1)
  frame : s' = { s with
    job := s'.job, errors := s'.errors, zsets := s'.zsets, sets := s'.sets, unique := s'.unique }

section Swept

variable {s s₁ s₂ : Store} {vs ws : List JobId} {id v : JobId} {st : JobState} {z : ZKey} {m : String → ZKey}

theorem Swept.nil (s : Store) : Swept s s [] where
  gone := nofun
  rest _ _ := rfl
  own := nofun
  dropped _ h := absurd rfl h
  frame := rfl

/-- Sweeping some jobs and then some others. -/
theorem Swept.trans (h : Swept s s₁ vs) (h' : Swept s₁ s₂ ws) (hd : ∀ w ∈ ws, w ∉ vs) : Swept s s₂ (vs ++ ws) := by
  have hhash : ∀ w ∈ ws, s₁.hash w = s.hash w := fun w hw => congrArg JobCell.fields (h.rest w (hd w hw))
  refine ⟨fun v hv => ?_, fun id hid => ?_, fun v hv u hu hc => ?_, fun u hne => ?_, ?_⟩
  · by_cases hw : v ∈ ws
    · exact h'.gone v hw
    · rw [h'.rest v hw]
      exact h.gone v ((List.mem_append.mp hv).resolve_right hw)
  · rw [List.mem_append, not_or] at hid
    rw [h'.rest id hid.2, h.rest id hid.1]
  · by_cases hw : v ∈ ws
    · exact h'.own v hw u hu ((hhash v hw).symm ▸ hc)
    · have hv := h.own v ((List.mem_append.mp hv).resolve_right hw) u hu hc
      by_cases hsame : s₂.unique u = s₁.unique u
      · rwa [hsame]
      · rw [(h'.dropped u hsame).2.1]
        nofun
  · by_cases hsame : s₂.unique u = s₁.unique u
    · rw [hsame] at hne ⊢
      obtain ⟨hu, hnone, v, hv, hrest⟩ := h.dropped u hne
      exact ⟨hu, hnone, v, List.mem_append_left _ hv, hrest⟩
    · obtain ⟨hu, hnone, w, hw, hc, ho⟩ := h'.dropped u hsame
      by_cases hfirst : s₁.unique u = s.unique u
      · exact ⟨hu, hnone, w, List.mem_append_right _ hw, hhash w hw ▸ hc, hfirst ▸ ho⟩
      · obtain ⟨-, -, v, hv, hrest⟩ := h.dropped u hfirst
        exact ⟨hu, hnone, v, List.mem_append_left _ hv, hrest⟩
  · rw [h'.frame, h.frame]

/-- A swept job is in no set. -/
theorem Swept.not_mem (h : Swept s s₁ vs) (hv : v ∈ vs) (k : ZKey) : v ∉ (s₁.zsets k).members := by
  rw [ZSet.mem_members]
  have : s₁.zscore k v = none := (h.gone v hv).score k (fun _ => trivial)
  rw [Store.zscore] at this
  simp [this]

/-- A job that is still in the store has not been swept. -/
theorem Swept.not_swept (h : Swept s s₁ vs) {x : JobHash} (hx : s₁.job id = some x) : id ∉ vs := by
  intro hv
  have : s₁.job id = none := (h.gone id hv).hash
  rw [this] at hx
  cases hx

/-- The agreement is one of each job by itself, so sweeping keeps it. -/
theorem Swept.agrees (h : Swept s s₁ vs) (hs : s.Agrees) : s₁.Agrees := by
  have hjob : ∀ id, id ∉ vs → s₁.job id = s.job id := fun id hid => congrArg JobCell.hash (h.rest id hid)
  have hback : ∀ id x, s₁.job id = some x → id ∉ vs ∧ s.job id = some x := fun id x hx =>
    ⟨h.not_swept hx, (hjob id (h.not_swept hx)).symm.trans hx⟩
  refine ⟨⟨fun id x hx => hs.stated id x (hback id x hx).2, fun id x hx k => ?_, fun id x st hx hst ht k hk k' hk' => ?_,
    fun id k hm => ?_, fun id he => ?_, fun id k => ?_⟩, fun id x hx => hs.named id x (hback id x hx).2⟩
  · rw [mem_iff_of_cell (h.rest id (hback id x hx).1)]
    exact hs.prescribed id x (hback id x hx).2 k
  · obtain ⟨hid, hx⟩ := hback id x hx
    have hscore : ∀ k, s₁.zscore k id = s.zscore k id := fun k => congrArg (fun c => c.score k) (h.rest id hid)
    rw [hscore, hscore]
    exact hs.mirrored id x st hx hst ht k hk k' hk'
  · by_cases hid : id ∈ vs
    · exact absurd hm (h.not_mem hid k)
    · rw [hjob id hid]
      exact hs.hashed id k ((mem_iff_of_cell (h.rest id hid) k).mp hm)
  · by_cases hid : id ∈ vs
    · exact absurd (h.gone id hid).errors he
    · rw [hjob id hid]
      have herr : s₁.errors id = s.errors id := congrArg JobCell.errors (h.rest id hid)
      exact hs.errors id (herr ▸ he)
  · by_cases hid : id ∈ vs
    · have hnone : s₁.job id = none := (h.gone id hid).hash
      simp only [hnone, reduceCtorEq, false_and, exists_false, iff_false]
      exact (h.gone id hid).member k (fun _ => trivial)
    · have hset : id ∈ s₁.sets k ↔ id ∈ s.sets k := iff_of_eq (congrArg (fun c => c.member k) (h.rest id hid))
      rw [hset, hjob id hid]
      exact hs.indexed id k

/-- Where the reservations are those of the live jobs, sweeping finished jobs keeps all of them. -/
theorem Swept.reserved (h : Swept s s₁ vs) (hr : s.Reserved)
    (hv : ∀ v ∈ vs, ∃ x st, s.job v = some x ∧ x.state = some st ∧ st.terminal) : s₁.unique = s.unique := by
  funext u
  by_contra hne
  obtain ⟨hu, -, v, hmem, hc, ho⟩ := h.dropped u hne
  obtain ⟨x, st, hx, hst, ht⟩ := hv v hmem
  rcases ho with ho | ho
  · obtain ⟨x', st', hx', -, hst', hlive⟩ := (hr.owner u hu v).mp ho
    rw [hx] at hx'
    cases hx'
    rw [hst] at hst'
    cases hst'
    exact hlive ht
  · have hkeep := congrFun (hr.teardown v x st hx hst ht) u
    rw [deleteJob_unique, hc, dropUniqueIfOwner, given_some hu] at hkeep
    simp [ho, Store.delUnique] at hkeep

/-! ### One victim -/

theorem cell_cleanupOne (s : Store) (z : ZKey) (m : String → ZKey) (v : JobId) :
    (cleanupOne z m s v).cell =
      Function.update s.cell v ((s.cell v).deleted.zremBoth z ((given (s.hash v).queue).map m)) := by
  simp [cleanupOne]

theorem Final.prescribed (hf : Final st z m) {x : JobHash} (h : z ∈ x.prescribed) :
    x.state = some st ∧ x.prescribed = [z, m (x.queue.getD "")] := by
  unfold JobHash.prescribed at h ⊢
  cases hx : x.state with
  | none => simp [hx] at h
  | some st' =>
    simp only [hx] at h ⊢
    cases hf <;> cases st' <;> by_cases hg : x.groupKey.getD "" = "" <;> simp [Redis.homeKeys, hg] at h ⊢

/-- Where the id sets are those the HASH carries, tearing the job down takes it out of all of them. -/
theorem deleted_member {c : JobCell} {x : JobHash} (hx : c.hash = some x) (hn : x.queue.getD "" ≠ "" ∧ x.kind.getD "" ≠ "")
    (hi : ∀ k, c.member k ↔ ∃ h, c.hash = some h ∧ h.Carries k) (k : SKey) : ¬ c.deleted.member k := by
  rintro ⟨hin, hout⟩
  obtain ⟨x', hx', hc⟩ := (hi k).mp hin
  rw [hx] at hx'
  cases hx'
  have hfields : c.fields = x := by rw [JobCell.fields, hx]; rfl
  refine hout ?_
  rw [hfields]
  cases k with
  | queueset q =>
    have hq : x.queue = some q := hc
    have hne : q ≠ "" := by simpa [hq] using hn.1
    simp [JobHash.indexKeys, hq, given_some hne]
  | kindset q =>
    have hq : x.kind = some q := hc
    have hne : q ≠ "" := by simpa [hq] using hn.2
    simp [JobHash.indexKeys, hq, given_some hne]
  | tagset t =>
    have ht : t ∈ x.tags.getD [] := hc
    simp [JobHash.indexKeys, ht]

/-- A victim leaves no trace. -/
theorem cleanupOne_gone (hs : s.AgreesAt v) (hf : Final st z m) (hv : v ∈ (s.zsets z).members) :
    ((s.cell v).deleted.zremBoth z ((given (s.hash v).queue).map m)).Gone True := by
  obtain ⟨x, hx⟩ := Option.isSome_iff_exists.mp (hs.hashed z hv)
  have hhash : s.hash v = x := by rw [Store.hash, hx]; rfl
  obtain ⟨-, hkeys⟩ := hf.prescribed ((hs.prescribed x hx z).mp hv)
  have hnamed := hs.named x hx
  have hgiven : given (s.hash v).queue = some (x.queue.getD "") := given_eq_some.mpr ⟨by rw [hhash], hnamed.1⟩
  rw [hgiven]
  refine ⟨rfl, fun k _ => deleted_member hx hnamed hs.indexed k, fun k _ => ?_, rfl⟩
  by_contra hne
  have hin : k ∈ x.prescribed := by
    refine (hs.prescribed x hx k).mp (ZSet.mem_members.mpr (Option.isSome_iff_ne_none.mpr fun hnone => hne ?_))
    have hc : (s.cell v).score k = none := hnone
    simp [JobCell.zremBoth, JobCell.deleted, hc]
  rw [hkeys] at hin
  rcases List.mem_cons.mp hin with rfl | hin
  · simp [JobCell.zremBoth] at hne
  · rw [List.mem_singleton] at hin
    simp [JobCell.zremBoth, hin] at hne

theorem cleanupOne_unique (s : Store) (z : ZKey) (m : String → ZKey) (v : JobId) :
    (cleanupOne z m s v).unique = (dropUniqueIfOwner s (s.hash v).uniqueKey v).unique := by
  simp [cleanupOne]

/-- Which keys `delete_job` writes. -/
theorem deleteJob_keys (s : Store) (v : JobId) :
    ∃ j e st un, deleteJob s v = { s with job := j, errors := e, sets := st, unique := un } := by
  obtain ⟨st, h⟩ := sremAll_eq s v (s.hash v).indexKeys
  obtain ⟨un, hu⟩ := dropUniqueIfOwner_eq { s with sets := st } v (s.hash v).uniqueKey
  unfold deleteJob
  dsimp only
  rw [h, hu]
  exact ⟨_, _, _, _, rfl⟩

theorem cleanupOne_frame (s : Store) (z : ZKey) (m : String → ZKey) (v : JobId) :
    cleanupOne z m s v = { s with
      job := (cleanupOne z m s v).job, errors := (cleanupOne z m s v).errors, zsets := (cleanupOne z m s v).zsets
      sets := (cleanupOne z m s v).sets, unique := (cleanupOne z m s v).unique } := by
  obtain ⟨j, e, st, un, h⟩ := deleteJob_keys s v
  unfold cleanupOne zremBoth
  dsimp only
  rw [h]
  cases (given (s.hash v).queue).map m <;> rfl

/-- **One victim** is swept. -/
theorem cleanupOne_swept (hs : s.AgreesAt v) (hf : Final st z m) (hv : v ∈ (s.zsets z).members) :
    Swept s (cleanupOne z m s v) [v] := by
  refine ⟨fun w hw => ?_, fun id hid => ?_, fun w hw u hu hc => ?_, fun u hne => ?_, cleanupOne_frame s z m v⟩
  · rw [List.mem_singleton] at hw
    subst hw
    rw [cell_cleanupOne, Function.update_self]
    exact cleanupOne_gone hs hf hv
  · rw [List.mem_singleton] at hid
    rw [cell_cleanupOne, Function.update_of_ne hid]
  · rw [List.mem_singleton] at hw
    subst hw
    rw [cleanupOne_unique, hc, dropUniqueIfOwner, given_some hu]
    dsimp only
    split
    · simp [Store.delUnique]
    · next ho => exact fun h => ho (Or.inl h)
  · rw [cleanupOne_unique, dropUniqueIfOwner] at hne ⊢
    split at hne
    · exact absurd rfl hne
    · next x hx =>
      obtain ⟨hx, hx0⟩ := given_eq_some.mp hx
      split at hne
      · next ho =>
        rw [if_pos ho]
        by_cases hux : u = x
        · subst hux
          refine ⟨hx0, by simp [Store.delUnique], v, List.mem_singleton_self v, ?_, ho⟩
          cases hk : (s.hash v).uniqueKey with
          | none => exact absurd (by simpa [hk] using hx.symm) hx0
          | some y => simpa [hk] using hx
        · simp [Store.delUnique, hux] at hne
      · exact absurd rfl hne

/-- A sweep writes the two sets of its state and no other. -/
theorem cleanupOne_zsets (s : Store) (hf : Final st z m) (v : JobId) :
    ((cleanupOne z m s v).zsets z) = (s.zsets z).rem v ∧
      ∀ k, k ≠ z → (∀ q, k ≠ m q) → (cleanupOne z m s v).zsets k = s.zsets k := by
  obtain ⟨j, e, sets, un, h⟩ := deleteJob_keys s v
  have hzm : ∀ q, z ≠ m q := by cases hf <;> nofun
  unfold cleanupOne zremBoth
  dsimp only
  rw [h]
  cases given (s.hash v).queue with
  | none =>
    refine ⟨by simp [Store.zrem], fun k hk _ => ?_⟩
    simp [Store.zrem, hk]
  | some q =>
    refine ⟨by simp [Store.zrem, hzm q], fun k hk hm => ?_⟩
    simp [Store.zrem, hk, hm q]

/-- What is left of a set when some members are taken out. -/
theorem rem_all_entries {ρ : Type} (f : ρ → JobId → ρ) (g : ρ → ZSet JobId) (hf : ∀ s v, g (f s v) = (g s).rem v) :
    ∀ (vs : List JobId) (s : ρ), (g (vs.foldl f s)).entries = (g s).entries.filter (fun e => e.2 ∉ vs)
  | [], s => by simp
  | v :: vs, s => by
    rw [List.foldl_cons, rem_all_entries f g hf vs, hf, ZSet.rem, List.filter_filter]
    refine List.filter_congr (fun e _ => ?_)
    simp [Bool.and_comm]

/-- The victims of one state, one after the other. -/
theorem cleanupAll_swept (hf : Final st z m) : ∀ (vs : List JobId) {s : Store}, (∀ v ∈ vs, s.AgreesAt v) → vs.Nodup →
    (∀ v ∈ vs, v ∈ (s.zsets z).members) → Swept s (vs.foldl (cleanupOne z m) s) vs
  | [], s, _, _, _ => Swept.nil s
  | v :: vs, s, hs, hnd, hv => by
    rw [List.nodup_cons] at hnd
    have h := cleanupOne_swept (hs v List.mem_cons_self) hf (hv v List.mem_cons_self)
    have hne : ∀ w ∈ vs, w ∉ [v] := fun w hw he => hnd.1 (List.mem_singleton.mp he ▸ hw)
    have hrest : ∀ w ∈ vs, w ∈ ((cleanupOne z m s v).zsets z).members := fun w hw =>
      (mem_iff_of_cell (h.rest w (hne w hw)) z).mpr (hv w (List.mem_cons_of_mem _ hw))
    have hat : ∀ w ∈ vs, (cleanupOne z m s v).AgreesAt w := fun w hw =>
      (hs w (List.mem_cons_of_mem _ hw)).of_cell (h.rest w (hne w hw))
    exact h.trans (cleanupAll_swept hf vs hat hnd.2 hrest) hne

end Swept

/-! ## One call -/

/-- The age and the count of a state. -/
def CleanupArgs.rule (a : CleanupArgs) : JobState → ℤ × ℤ
  | .completed => (a.ageCompleted, a.countCompleted)
  | .failed => (a.ageFailed, a.countFailed)
  | _ => (a.ageCancelled, a.countCancelled)

/-- How many entries of a final state are to go. -/
def CleanupArgs.surplus (a : CleanupArgs) (s : Store) (st : JobState) (z : ZKey) : Nat :=
  Redis.surplus (s.zsets z) a.now (a.rule st).1 (a.rule st).2

/-- The oldest of them, as many as one call takes. -/
def CleanupArgs.oldest (a : CleanupArgs) (s : Store) (st : JobState) (z : ZKey) : List JobId :=
  (s.zsets z).members.take (min a.batchLimit (a.surplus s st z))

section Call

variable {s s₁ : Store} {vs : List JobId} {a : CleanupArgs} {st st' : JobState} {z z' : ZKey} {m m' : String → ZKey}

/-- No more can go than there are. -/
theorem CleanupArgs.surplus_le (a : CleanupArgs) (s : Store) (st : JobState) (z : ZKey) :
    a.surplus s st z ≤ (s.zsets z).card := by
  have hcount : (s.zsets z).entries.countP (fun e => agedOut a.now (a.rule st).1 e.1) ≤ (s.zsets z).card :=
    List.countP_le_length
  have hbeyond : beyondCount (s.zsets z).card (a.rule st).2 ≤ (s.zsets z).card := by
    rw [beyondCount]
    split <;> omega
  exact max_le hcount hbeyond

theorem CleanupArgs.length_oldest (a : CleanupArgs) (s : Store) (st : JobState) (z : ZKey) :
    (a.oldest s st z).length = min a.batchLimit (a.surplus s st z) := by
  have hle := a.surplus_le s st z
  have hlen : (s.zsets z).members.length = (s.zsets z).card := List.length_map _
  rw [CleanupArgs.oldest, List.length_take, hlen]
  omega

/-- The sweep of one state. -/
theorem cleanupState_eq (a : CleanupArgs) (s : Store) (st : JobState) (z : ZKey) (m : String → ZKey) :
    cleanupState s z m a.now (a.rule st).1 (a.rule st).2 a.batchLimit =
      ((a.oldest s st z).foldl (cleanupOne z m) s, (a.oldest s st z).length) := by
  unfold cleanupState
  split
  · next hno =>
    have hzero : a.surplus s st z = 0 := by
      simp [CleanupArgs.surplus, Redis.surplus, beyondCount, agedOut, not_le.mpr hno.1, not_le.mpr hno.2]
    rw [CleanupArgs.oldest, hzero]
    simp
  · dsimp only
    rw [cleanupVictims_eq]
    rfl

/-- What a sweep of one state leaves. -/
structure SweptState (a : CleanupArgs) (s : Store) (st : JobState) (z : ZKey) (m : String → ZKey) (s' : Store) : Prop where
  swept : Swept s s' (a.oldest s st z)
  left : (s'.zsets z).entries = (s.zsets z).entries.drop (min a.batchLimit (a.surplus s st z))
  other : ∀ k, k ≠ z → (∀ q, k ≠ m q) → s'.zsets k = s.zsets k

theorem cleanupState_swept (hf : Final st z m) (hs : s.Agrees) (a : CleanupArgs) :
    SweptState a s st z m ((a.oldest s st z).foldl (cleanupOne z m) s) where
  swept := cleanupAll_swept hf _ (fun v _ => hs.at v) ((s.zsets z).nodup.sublist (List.take_sublist _ _))
    (fun v hv => List.mem_of_mem_take hv)
  left := by
    rw [rem_all_entries (cleanupOne z m) (fun s => s.zsets z) (fun s v => (cleanupOne_zsets s hf v).1)]
    exact ZSet.entries_drop _ _
  other k hk hm := by
    generalize a.oldest s st z = vs
    clear hs
    induction vs generalizing s with
    | nil => rfl
    | cons v vs ih => rw [List.foldl_cons, ih, (cleanupOne_zsets s hf v).2 k hk hm]

/-- The set of another final state is not written. -/
theorem SweptState.untouched (h : SweptState a s st z m s₁) (hf : Final st z m) (hf' : Final st' z' m') (hne : st' ≠ st) :
    s₁.zsets z' = s.zsets z' := by
  refine h.other z' ?_ (fun q => ?_)
  · cases hf <;> cases hf' <;> simp at hne ⊢
  · cases hf <;> cases hf' <;> nofun

/-- What one call does: of each final state it sweeps the oldest entries that are to go, as many as it may take. -/
structure Cleaned (a : CleanupArgs) (s : Store) (r : Store × Nat × Nat × Nat) : Prop where
  swept : Swept s r.1 (a.oldest s .completed .completed ++ a.oldest s .failed .failed ++
    a.oldest s .cancelled .cancelled)
  counts : r.2 = (min a.batchLimit (a.surplus s .completed .completed), min a.batchLimit (a.surplus s .failed .failed),
    min a.batchLimit (a.surplus s .cancelled .cancelled))
  left : ∀ st z m, Final st z m → (r.1.zsets z).entries = (s.zsets z).entries.drop (min a.batchLimit (a.surplus s st z))

/-- The members of the sets of two final states differ. -/
theorem Final.disjoint (hf : Final st z m) (hf' : Final st' z' m') (hne : st' ≠ st) (hs : s.Agrees) {v : JobId}
    (hv : v ∈ (s.zsets z).members) : v ∉ (s.zsets z').members := by
  intro hv'
  obtain ⟨x, hx⟩ := Option.isSome_iff_exists.mp (hs.hashed v z hv)
  have h1 := (hf.prescribed ((hs.prescribed v x hx z).mp hv)).1
  have h2 := (hf'.prescribed ((hs.prescribed v x hx z').mp hv')).1
  rw [h1, Option.some.injEq] at h2
  exact hne h2.symm

/-- What is to go of a state depends on its set alone. -/
theorem CleanupArgs.surplus_congr (a : CleanupArgs) (h : s₁.zsets z = s.zsets z) (st : JobState) :
    a.surplus s₁ st z = a.surplus s st z := by
  rw [CleanupArgs.surplus, CleanupArgs.surplus, h]

theorem CleanupArgs.oldest_congr (a : CleanupArgs) (h : s₁.zsets z = s.zsets z) (st : JobState) :
    a.oldest s₁ st z = a.oldest s st z := by
  rw [CleanupArgs.oldest, CleanupArgs.oldest, a.surplus_congr h, h]

/-- **One call.** -/
theorem fnCleanup_cleaned (hs : s.Agrees) (hb : 0 < a.batchLimit) : Cleaned a s (fnCleanup s a) := by
  have hlimit : (if a.batchLimit = 0 then 500 else a.batchLimit) = a.batchLimit := if_neg hb.ne'
  have hc := cleanupState_swept .completed hs a
  have hc_eq := cleanupState_eq a s .completed .completed .nqcompleted
  generalize (a.oldest s .completed .completed).foldl (cleanupOne .completed .nqcompleted) s = s₁ at hc hc_eq
  have hs₁ := hc.swept.agrees hs
  have hzf : s₁.zsets .failed = s.zsets .failed := hc.untouched .completed .failed nofun
  have hzx : s₁.zsets .cancelled = s.zsets .cancelled := hc.untouched .completed .cancelled nofun
  have hf := cleanupState_swept .failed hs₁ a
  have hf_eq := cleanupState_eq a s₁ .failed .failed .nqfailed
  generalize (a.oldest s₁ .failed .failed).foldl (cleanupOne .failed .nqfailed) s₁ = s₂ at hf hf_eq
  have hs₂ := hf.swept.agrees hs₁
  have hzc₂ : s₂.zsets .completed = s₁.zsets .completed := hf.untouched .failed .completed nofun
  have hzx₂ : s₂.zsets .cancelled = s.zsets .cancelled := (hf.untouched .failed .cancelled nofun).trans hzx
  have hx := cleanupState_swept .cancelled hs₂ a
  have hx_eq := cleanupState_eq a s₂ .cancelled .cancelled .nqcancelled
  generalize (a.oldest s₂ .cancelled .cancelled).foldl (cleanupOne .cancelled .nqcancelled) s₂ = s₃ at hx hx_eq
  have hzc₃ : s₃.zsets .completed = s₁.zsets .completed := (hx.untouched .cancelled .completed nofun).trans hzc₂
  have hzf₃ : s₃.zsets .failed = s₂.zsets .failed := hx.untouched .cancelled .failed nofun
  have hcall : fnCleanup s a = (s₃, (a.oldest s .completed .completed).length, (a.oldest s₁ .failed .failed).length,
      (a.oldest s₂ .cancelled .cancelled).length) := by
    unfold fnCleanup
    dsimp only [CleanupArgs.rule] at hc_eq hf_eq hx_eq ⊢
    rw [hlimit, hc_eq, hf_eq, hx_eq]
  rw [hcall]
  refine ⟨?_, ?_, fun st z m hfin => ?_⟩
  · have hfs := hf.swept
    have hxs := hx.swept
    rw [a.oldest_congr hzf] at hfs
    rw [a.oldest_congr hzx₂] at hxs
    have hcf := hc.swept.trans hfs (fun w hw hin => Final.completed.disjoint .failed nofun hs
      (List.mem_of_mem_take hin) (List.mem_of_mem_take hw))
    refine hcf.trans hxs (fun w hw hin => ?_)
    rcases List.mem_append.mp hin with hin | hin
    · exact Final.completed.disjoint .cancelled nofun hs (List.mem_of_mem_take hin) (List.mem_of_mem_take hw)
    · exact Final.failed.disjoint .cancelled nofun hs (List.mem_of_mem_take hin) (List.mem_of_mem_take hw)
  · rw [a.length_oldest, a.length_oldest, a.length_oldest, a.surplus_congr hzf, a.surplus_congr hzx₂]
  · cases hfin with
    | completed => rw [hzc₃, hc.left]
    | failed => rw [hzf₃, hf.left, hzf, a.surplus_congr hzf]
    | cancelled => rw [hx.left, hzx₂, a.surplus_congr hzx₂]

end Call

/-! ## The rounds -/

/-- `MAX_ROUNDS` and `PER_STATE_LIMIT` of `RedisBackend::cleanup`. -/
def maxRounds : Nat := 40

def perStateLimit : Nat := 500

/-- The loop of `RedisBackend::cleanup`: it calls until every state comes back short of the limit, in at most so many
rounds. It returns the totals, and whether it stopped by itself. -/
def cleanupRounds (a : CleanupArgs) : Nat → Store → Store × (Nat × Nat × Nat) × Bool
  | 0, s => (s, (0, 0, 0), false)
  | n + 1, s =>
    let (s, c, f, x) := fnCleanup s a
    if c < a.batchLimit ∧ f < a.batchLimit ∧ x < a.batchLimit then (s, (c, f, x), true)
    else
      let (s, (c', f', x'), stopped) := cleanupRounds a n s
      (s, (c + c', f + f', x + x'), stopped)

section Rounds

variable {s s₁ : Store} {a : CleanupArgs} {st : JobState} {z : ZKey} {m : String → ZKey}

/-- What is to go when the first of them are gone. -/
theorem surplus_drop {z z' : ZSet JobId} (now age count : ℤ) {n : Nat} (h : z'.entries = z.entries.drop n)
    (hn : n ≤ z.card) : surplus z' now age count = surplus z now age count - n := by
  have hcount : z'.entries.countP (fun e => agedOut now age e.1) =
      z.entries.countP (fun e => agedOut now age e.1) - n := by
    rw [h]
    exact ZSet.countP_drop z (agedOut_mono now age) n
  have hbeyond : beyondCount z'.card count = beyondCount z.card count - n := by
    have hcard : z'.card = z.card - n := by rw [ZSet.card, h, List.length_drop, ZSet.card]
    rw [beyondCount, beyondCount, hcard]
    split <;> omega
  rw [surplus, surplus, hcount, hbeyond]
  omega

/-- After a call, what one call takes less is to go. -/
theorem Cleaned.surplus {r : Store × Nat × Nat × Nat} (h : Cleaned a s r) (hf : Final st z m) :
    a.surplus r.1 st z = a.surplus s st z - min a.batchLimit (a.surplus s st z) :=
  surplus_drop _ _ _ (h.left st z m hf) ((min_le_right _ _).trans (a.surplus_le s st z))

/-- **The rounds that stop by themselves leave no surplus**: of each final state the first `surplus` entries are gone, and
the others are there. -/
theorem cleanupRounds_left (hb : 0 < a.batchLimit) (hf : Final st z m) : ∀ (n : Nat) {s : Store}, s.Agrees →
    (cleanupRounds a n s).2.2 = true →
    (((cleanupRounds a n s).1).zsets z).entries = (s.zsets z).entries.drop (a.surplus s st z)
  | 0, _, _, h => by cases h
  | n + 1, s, hs, h => by
    have hcall := fnCleanup_cleaned hs hb
    have hleft := hcall.left st z m hf
    have hcounts := hcall.counts
    have hsurplus := hcall.surplus hf
    have hs' := hcall.swept.agrees hs
    unfold cleanupRounds at h ⊢
    generalize fnCleanup s a = r at *
    obtain ⟨s₁, c, f, x⟩ := r
    dsimp only at *
    obtain ⟨rfl, rfl, rfl⟩ : _ ∧ _ ∧ _ := by simpa only [Prod.mk.injEq] using hcounts
    split
    · next hshort =>
      -- a state that comes back short has nothing left to go
      have hall : min a.batchLimit (a.surplus s st z) = a.surplus s st z := by
        obtain ⟨hc, hf', hx⟩ := hshort
        cases hf <;> omega
      rw [hleft, hall]
    · next hshort =>
      rw [if_neg hshort] at h
      rw [cleanupRounds_left hb hf n hs' h, hleft, hsurplus, List.drop_drop]
      congr 1
      omega

end Rounds

end Eddyq.Redis
