import Eddyq.Redis.Cells

/-!
# The mirror backfill

`eddyq_backfill_nq_states` walks the head of each global set and puts the entries that its queue's mirror lacks into
the mirror. The global sets stay as they are, so a second call walks the same heads.

* `Filled s items s' n`: what a walk of the entries `items` does, an entry at a time (`Filled.cons`).
* `backfillRounds_eq`: calling until the reply is 0 takes at most two calls, and the second changes nothing.
* `backfill_completes_iff`: the mirrors are complete then exactly when no entry behind the heads lacks its mirror.
-/

namespace Eddyq.Redis

open Eddyq.Lib

/-! ## The function -/

/-- The global sets with their mirrors. -/
def backfillSources : List (ZKey × (String → ZKey)) :=
  [(.delayed, .nqscheduled), (.completed, .nqcompleted), (.failed, .nqfailed), (.cancelled, .nqcancelled)]

/-- `ZADD NX` of one entry, and the count of those added. -/
def backfillEntry (mirror : String → ZKey) (r : Store × Nat) (e : ℤ × JobId) : Store × Nat :=
  match given (r.1.hash e.2).queue with
  | none => r
  | some q =>
    if (r.1.zscore (mirror q) e.2).isSome then r
    else ({ r.1.zadd (mirror q) e.1 e.2 with queuesSeen := r.1.queuesSeen.insert q }, r.2 + 1)

/-- `batch_limit`, by default 5000. -/
def backfillLimit (batchLimit : Option ℤ) : Nat :=
  let limit := batchLimit.getD 5000
  if limit ≤ 0 then 5000 else limit.toNat

/-- `eddyq_backfill_nq_states`: how many entries it added to the mirrors. -/
def fnBackfillNqStates (s : Store) (batchLimit : Option ℤ) : Store × Nat :=
  let limit := backfillLimit batchLimit
  backfillSources.foldl (fun r src => ((r.1.zsets src.1).entries.take limit).foldl (backfillEntry src.2) r) (s, 0)

/-- Calling again until the reply is 0. -/
def backfillRounds (batchLimit : Option ℤ) : Nat → Store → Option Store
  | 0, _ => none
  | n + 1, s =>
    let r := fnBackfillNqStates s batchLimit
    if r.2 = 0 then some r.1 else backfillRounds batchLimit n r.1

/-! ## One walk -/

/-- An entry with the mirrors of its set. -/
abbrev BackfillItem := (String → ZKey) × ℤ × JobId

/-- The mirror of an entry. -/
def BackfillItem.target (it : BackfillItem) (s : Store) : Option ZKey := (given (s.hash it.2.2).queue).map it.1

/-- The entries one call walks. -/
def backfillItems (s : Store) (limit : Nat) : List BackfillItem :=
  backfillSources.flatMap (fun src => ((s.zsets src.1).entries.take limit).map (fun e => (src.2, e)))

/-- What a walk does. -/
structure Filled (s : Store) (items : List BackfillItem) (s' : Store) (n : Nat) : Prop where
  frame : s' = { s with zsets := s'.zsets, queuesSeen := s'.queuesSeen }
  /-- No entry is rewritten. -/
  kept : ∀ k id sc, s.zscore k id = some sc → s'.zscore k id = some sc
  /-- A new entry is a copy. -/
  added : ∀ k id sc, s.zscore k id = none → s'.zscore k id = some sc →
    ∃ it ∈ items, it.2 = (sc, id) ∧ it.target s = some k
  filled : ∀ it ∈ items, ∀ k, it.target s = some k → (s'.zscore k it.2.2).isSome
  seen : ∀ q, q ∈ s'.queuesSeen ↔ q ∈ s.queuesSeen ∨
    ∃ it ∈ items, given (s.hash it.2.2).queue = some q ∧ s.zscore (it.1 q) it.2.2 = none
  untouched : ∀ k, (∀ it ∈ items, it.target s ≠ some k) → s'.zsets k = s.zsets k
  idle : n = 0 ↔ ∀ it ∈ items, ∀ k, it.target s = some k → (s.zscore k it.2.2).isSome
  idle_eq : n = 0 → s' = s

section Walk

variable {s s₁ s' : Store} {items : List BackfillItem} {it : BackfillItem} {n : Nat}

theorem Filled.nil (s : Store) : Filled s [] s 0 where
  frame := rfl
  kept _ _ _ h := h
  added _ _ _ h h' := by rw [h] at h'; cases h'
  filled := nofun
  seen _ := by simp
  untouched _ _ := rfl
  idle := by simp
  idle_eq _ := rfl

/-- An entry without a mirror, or already in it, is passed over. -/
theorem Filled.skip (h : Filled s items s' n)
    (hskip : ∀ k, it.target s = some k → (s.zscore k it.2.2).isSome) : Filled s (it :: items) s' n where
  frame := h.frame
  kept := h.kept
  added k id sc hnone hsc := by
    obtain ⟨it', hit, hrest⟩ := h.added k id sc hnone hsc
    exact ⟨it', List.mem_cons_of_mem _ hit, hrest⟩
  filled it' hit k ht := by
    rcases List.mem_cons.mp hit with rfl | hit
    · obtain ⟨sc, hsc⟩ := Option.isSome_iff_exists.mp (hskip k ht)
      rw [h.kept k _ sc hsc]
      rfl
    · exact h.filled it' hit k ht
  seen q := by
    rw [h.seen q]
    refine or_congr_right ⟨?_, ?_⟩
    · rintro ⟨it', hit, hrest⟩
      exact ⟨it', List.mem_cons_of_mem _ hit, hrest⟩
    · rintro ⟨it', hit, hq, hnone⟩
      rcases List.mem_cons.mp hit with rfl | hit
      · have := hskip (it'.1 q) (by rw [BackfillItem.target, hq]; rfl)
        rw [hnone] at this
        cases this
      · exact ⟨it', hit, hq, hnone⟩
  untouched k hk := h.untouched k (fun it' hit => hk it' (List.mem_cons_of_mem _ hit))
  idle := by
    rw [h.idle]
    constructor
    · intro hall it' hit k ht
      rcases List.mem_cons.mp hit with rfl | hit
      · exact hskip k ht
      · exact hall it' hit k ht
    · exact fun hall it' hit => hall it' (List.mem_cons_of_mem _ hit)
  idle_eq := h.idle_eq

/-- An entry that its mirror lacks is copied first. -/
theorem Filled.copy {q : String} (hq : given (s.hash it.2.2).queue = some q) (hnone : s.zscore (it.1 q) it.2.2 = none)
    (h : Filled { s.zadd (it.1 q) it.2.1 it.2.2 with queuesSeen := s.queuesSeen.insert q } items s' n) :
    Filled s (it :: items) s' (n + 1) := by
  have htarget : it.target s = some (it.1 q) := by rw [BackfillItem.target, hq]; rfl
  have hscore : ∀ k id, ({ s.zadd (it.1 q) it.2.1 it.2.2 with queuesSeen := s.queuesSeen.insert q } : Store).zscore k id =
      if k = it.1 q ∧ id = it.2.2 then some it.2.1 else s.zscore k id := fun k id => s.zscore_zadd _ _ _ _ _
  have hsame : ∀ it' : BackfillItem, it'.target ({ s.zadd (it.1 q) it.2.1 it.2.2 with
      queuesSeen := s.queuesSeen.insert q } : Store) = it'.target s := fun _ => rfl
  refine ⟨?_, fun k id sc hsc => ?_, fun k id sc hno hsc => ?_, fun it' hit k ht => ?_, fun x => ?_, fun k hk => ?_,
    ?_, fun h0 => absurd h0 (Nat.succ_ne_zero n)⟩
  · rw [h.frame]
    rfl
  · refine h.kept k id sc ?_
    rw [hscore]
    split
    · next hk =>
      rw [hk.1, hk.2, hnone] at hsc
      cases hsc
    · exact hsc
  · by_cases hk : k = it.1 q ∧ id = it.2.2
    · have hnew := h.kept k id it.2.1 (by rw [hscore, if_pos hk])
      rw [hnew] at hsc
      cases hsc
      exact ⟨it, List.mem_cons_self, by rw [hk.2], hk.1 ▸ htarget⟩
    · obtain ⟨it', hit, hrest⟩ := h.added k id sc (by rw [hscore, if_neg hk]; exact hno) hsc
      exact ⟨it', List.mem_cons_of_mem _ hit, hrest⟩
  · rcases List.mem_cons.mp hit with rfl | hit
    · rw [htarget] at ht
      cases ht
      rw [h.kept (it'.1 q) it'.2.2 it'.2.1 (by rw [hscore, if_pos ⟨rfl, rfl⟩])]
      rfl
    · exact h.filled it' hit k ht
  · rw [h.seen x, List.mem_insert_iff]
    constructor
    · rintro ((rfl | hx) | ⟨it', hit, hqx, hno⟩)
      · exact Or.inr ⟨it, List.mem_cons_self, hq, hnone⟩
      · exact Or.inl hx
      · refine Or.inr ⟨it', List.mem_cons_of_mem _ hit, hqx, ?_⟩
        rw [hscore] at hno
        split at hno
        · cases hno
        · exact hno
    · rintro (hx | ⟨it', hit, hqx, hno⟩)
      · exact Or.inl (Or.inr hx)
      · rcases List.mem_cons.mp hit with rfl | hit
        · rw [hq] at hqx
          exact Or.inl (Or.inl (Option.some.inj hqx).symm)
        · by_cases hk : it'.1 x = it.1 q ∧ it'.2.2 = it.2.2
          · -- the same job, so the same queue
            rw [hk.2, hq] at hqx
            exact Or.inl (Or.inl (Option.some.inj hqx).symm)
          · exact Or.inr ⟨it', hit, hqx, by rw [hscore, if_neg hk]; exact hno⟩
  · rw [h.untouched k (fun it' hit => hk it' (List.mem_cons_of_mem _ hit))]
    have hne : k ≠ it.1 q := fun he => hk it List.mem_cons_self (he ▸ htarget)
    exact Function.update_of_ne hne _ _
  · constructor
    · exact fun h0 => absurd h0 (Nat.succ_ne_zero n)
    · intro hall
      have := hall it List.mem_cons_self (it.1 q) htarget
      rw [hnone] at this
      cases this

/-- An entry is passed over or copied. -/
theorem backfillEntry_cases (s : Store) (n : Nat) (it : BackfillItem) :
    (backfillEntry it.1 (s, n) it.2 = (s, n) ∧ ∀ k, it.target s = some k → (s.zscore k it.2.2).isSome) ∨
      ∃ q, given (s.hash it.2.2).queue = some q ∧ s.zscore (it.1 q) it.2.2 = none ∧ backfillEntry it.1 (s, n) it.2 =
        ({ s.zadd (it.1 q) it.2.1 it.2.2 with queuesSeen := s.queuesSeen.insert q }, n + 1) := by
  unfold backfillEntry BackfillItem.target
  dsimp only
  cases given (s.hash it.2.2).queue with
  | none => exact Or.inl ⟨rfl, nofun⟩
  | some q =>
    dsimp only
    split
    · next hin =>
      refine Or.inl ⟨rfl, fun k hk => ?_⟩
      cases hk
      exact hin
    · next hout => exact Or.inr ⟨q, rfl, Option.not_isSome_iff_eq_none.mp hout, rfl⟩

/-- The walk, an entry at a time. -/
theorem backfillWalk_filled : ∀ (items : List BackfillItem) (s : Store) (n : Nat),
    ∃ m, (items.foldl (fun r it => backfillEntry it.1 r it.2) (s, n)).2 = n + m ∧
      Filled s items (items.foldl (fun r it => backfillEntry it.1 r it.2) (s, n)).1 m
  | [], s, n => ⟨0, rfl, Filled.nil s⟩
  | it :: items, s, n => by
    rw [List.foldl_cons]
    rcases backfillEntry_cases s n it with ⟨heq, hskip⟩ | ⟨q, hq, hnone, heq⟩
    · obtain ⟨m, hm, h⟩ := backfillWalk_filled items s n
      rw [heq]
      exact ⟨m, hm, h.skip hskip⟩
    · obtain ⟨m, hm, h⟩ := backfillWalk_filled items
        { s.zadd (it.1 q) it.2.1 it.2.2 with queuesSeen := s.queuesSeen.insert q } (n + 1)
      rw [heq]
      exact ⟨m + 1, by omega, h.copy hq hnone⟩

/-- A walk of mirrors leaves the other sets as they are. -/
theorem backfillWalk_zsets (m : String → ZKey) {k : ZKey} (hk : ∀ q, k ≠ m q) (l : List (ℤ × JobId)) (r : Store × Nat) :
    (l.foldl (backfillEntry m) r).1.zsets k = r.1.zsets k := by
  refine List.foldlRecOn l (backfillEntry m) (motive := fun r' => r'.1.zsets k = r.1.zsets k) rfl ?_
  rintro ⟨s, n⟩ hr e -
  rcases backfillEntry_cases s n (m, e) with ⟨heq, -⟩ | ⟨q, -, -, heq⟩
  · rw [heq]
    exact hr
  · rw [heq]
    exact (Function.update_of_ne (hk q) _ _).trans hr

theorem backfillSources_ne {z : ZKey} {m m' : String → ZKey} {z' : ZKey} (h : (z, m) ∈ backfillSources)
    (h' : (z', m') ∈ backfillSources) (q : String) : z ≠ m' q := by
  simp only [backfillSources, List.mem_cons, Prod.mk.injEq, List.not_mem_nil, or_false] at h h'
  rcases h with ⟨rfl, rfl⟩ | ⟨rfl, rfl⟩ | ⟨rfl, rfl⟩ | ⟨rfl, rfl⟩ <;>
    rcases h' with ⟨rfl, rfl⟩ | ⟨rfl, rfl⟩ | ⟨rfl, rfl⟩ | ⟨rfl, rfl⟩ <;> nofun

/-- A mirror tells its set and its queue. -/
theorem backfillSources_inj {z z' : ZKey} {m m' : String → ZKey} {q q' : String} (h : (z, m) ∈ backfillSources)
    (h' : (z', m') ∈ backfillSources) (hk : m q = m' q') : z' = z ∧ m' = m ∧ q' = q := by
  simp only [backfillSources, List.mem_cons, Prod.mk.injEq, List.not_mem_nil, or_false] at h h'
  rcases h with ⟨rfl, rfl⟩ | ⟨rfl, rfl⟩ | ⟨rfl, rfl⟩ | ⟨rfl, rfl⟩ <;>
    rcases h' with ⟨rfl, rfl⟩ | ⟨rfl, rfl⟩ | ⟨rfl, rfl⟩ | ⟨rfl, rfl⟩ <;> cases hk <;> exact ⟨rfl, rfl, rfl⟩

/-- A call is one walk, since it writes no set it reads. -/
theorem fnBackfill_eq (s : Store) (b : Option ℤ) :
    fnBackfillNqStates s b =
      (backfillItems s (backfillLimit b)).foldl (fun r it => backfillEntry it.1 r it.2) (s, 0) := by
  have hwalk : ∀ (srcs : List (ZKey × (String → ZKey))) (r : Store × Nat), srcs ⊆ backfillSources →
      (∀ z m, (z, m) ∈ backfillSources → r.1.zsets z = s.zsets z) →
      srcs.foldl (fun r src => ((r.1.zsets src.1).entries.take (backfillLimit b)).foldl (backfillEntry src.2) r) r =
        (srcs.flatMap (fun src => ((s.zsets src.1).entries.take (backfillLimit b)).map (fun e => (src.2, e)))).foldl
          (fun r it => backfillEntry it.1 r it.2) r := by
    intro srcs
    induction srcs with
    | nil => exact fun r _ _ => rfl
    | cons src srcs ih =>
      intro r hsub hr
      have hsrc := hsub List.mem_cons_self
      rw [List.foldl_cons, List.flatMap_cons, List.foldl_append, List.foldl_map, hr src.1 src.2 hsrc]
      refine ih _ (fun x hx => hsub (List.mem_cons_of_mem _ hx)) (fun z m hz => ?_)
      rw [backfillWalk_zsets src.2 (backfillSources_ne hz hsrc)]
      exact hr z m hz
  exact hwalk backfillSources (s, 0) (List.Subset.refl _) (fun _ _ _ => rfl)

/-- **One call.** -/
theorem fnBackfill_filled (s : Store) (b : Option ℤ) :
    Filled s (backfillItems s (backfillLimit b)) (fnBackfillNqStates s b).1 (fnBackfillNqStates s b).2 := by
  obtain ⟨m, hm, h⟩ := backfillWalk_filled (backfillItems s (backfillLimit b)) s 0
  rw [fnBackfill_eq, hm, Nat.zero_add]
  exact h

theorem mem_backfillItems {s : Store} {limit : Nat} {it : BackfillItem} :
    it ∈ backfillItems s limit ↔ ∃ z, (z, it.1) ∈ backfillSources ∧ it.2 ∈ (s.zsets z).entries.take limit := by
  simp only [backfillItems, List.mem_flatMap, List.mem_map]
  constructor
  · rintro ⟨src, hsrc, e, he, rfl⟩
    exact ⟨src.1, hsrc, he⟩
  · rintro ⟨z, hsrc, he⟩
    exact ⟨(z, it.1), hsrc, it.2, he, rfl⟩

/-- A second call walks the same heads and adds nothing. -/
theorem fnBackfill_again (s : Store) (b : Option ℤ) :
    fnBackfillNqStates (fnBackfillNqStates s b).1 b = ((fnBackfillNqStates s b).1, 0) := by
  have h := fnBackfill_filled s b
  generalize (fnBackfillNqStates s b).1 = s₁ at h ⊢
  have h' := fnBackfill_filled s₁ b
  have htarget : ∀ it : BackfillItem, it.target s₁ = it.target s := by
    intro it
    have hhash : s₁.hash it.2.2 = s.hash it.2.2 := by rw [Store.hash, h.frame]; rfl
    rw [BackfillItem.target, hhash, BackfillItem.target]
  have hitems : backfillItems s₁ (backfillLimit b) = backfillItems s (backfillLimit b) := by
    unfold backfillItems
    refine List.flatMap_congr (fun src hsrc => ?_)
    rw [h.untouched src.1 (fun it hit ht => ?_)]
    -- no source is a mirror
    obtain ⟨z, hz, -⟩ := mem_backfillItems.mp hit
    obtain ⟨q, -, hq⟩ := Option.map_eq_some_iff.mp ht
    exact backfillSources_ne hsrc hz q hq.symm
  have hidle := h'.idle.mpr (fun it hit k hk => h.filled it (hitems ▸ hit) k (htarget it ▸ hk))
  exact Prod.ext (h'.idle_eq hidle) hidle

/-- **Calling until the reply is 0** ends after at most two calls, with the store of the first. -/
theorem backfillRounds_eq (s : Store) (b : Option ℤ) (n : Nat) :
    backfillRounds b (n + 2) s = some (fnBackfillNqStates s b).1 := by
  unfold backfillRounds
  dsimp only
  split
  · rfl
  · unfold backfillRounds
    rw [fnBackfill_again]
    rfl

end Walk

/-! ## The result -/

/-- The backfill from `s` has completed with `s'`: every entry of a global set whose HASH is there is in the mirror of
its queue with the same score, and the queue has been seen; all that is new are such entries and their queues. -/
structure MirrorsComplete (s s' : Store) : Prop where
  mirrored : ∀ z m, (z, m) ∈ backfillSources → ∀ id sc, s.zscore z id = some sc → (s.job id).isSome →
    ∃ q, (s.hash id).queue = some q ∧ s'.zscore (m q) id = some sc ∧ q ∈ s'.queuesSeen
  frame : s' = { s with zsets := s'.zsets, queuesSeen := s'.queuesSeen }
  others : ∀ k, (∀ src ∈ backfillSources, ∀ q, k ≠ src.2 q) → s'.zsets k = s.zsets k
  copies : ∀ k id, s'.zscore k id ≠ s.zscore k id → ∃ z m q, (z, m) ∈ backfillSources ∧ (s.hash id).queue = some q ∧
    k = m q ∧ s.zscore k id = none ∧ s'.zscore k id = s.zscore z id
  seen : ∀ q, q ∈ s.queuesSeen → q ∈ s'.queuesSeen
  queues : ∀ q, q ∈ s'.queuesSeen → q ∈ s.queuesSeen ∨
    ∃ z m id, (z, m) ∈ backfillSources ∧ (s.zscore z id).isSome ∧ (s.hash id).queue = some q

/-- An entry among the first `limit` of a global set that the mirror of its queue `q` lacks. -/
def Store.Lacking (s : Store) (limit : Nat) (z : ZKey) (m : String → ZKey) (id : JobId) (q : String) : Prop :=
  (z, m) ∈ backfillSources ∧ id ∈ (s.zsets z).range 0 limit ∧ (s.hash id).queue = some q ∧ q ≠ "" ∧
    s.zscore (m q) id = none

/-- Every entry with a HASH is in its mirror already, or lacks it among the first; its queue has been seen, or an
entry among the first is of this queue and lacks its mirror. -/
def Store.WithinReach (s : Store) (limit : Nat) : Prop :=
  ∀ z m, (z, m) ∈ backfillSources → ∀ id sc, s.zscore z id = some sc → (s.job id).isSome →
    ∃ q, (s.hash id).queue = some q ∧ (s.zscore (m q) id = some sc ∨ s.Lacking limit z m id q) ∧
      (q ∈ s.queuesSeen ∨ ∃ z' m' id', s.Lacking limit z' m' id' q)

section Result

variable {s s' : Store} {b : Option ℤ} {limit n : Nat}

theorem given_of_queue {q : String} {o : Option String} (h : o = some q) (hq : q ≠ "") : given o = some q := by
  rw [h, given_some hq]

theorem queue_of_given {q : String} {o : Option String} (h : given o = some q) : o = some q ∧ q ≠ "" := by
  obtain ⟨hget, hq⟩ := given_eq_some.mp h
  cases o with
  | none => exact absurd hget.symm hq
  | some x => exact ⟨congrArg some hget, hq⟩

/-- The entries a walk finds missing. -/
theorem lacking_iff {z : ZKey} {m : String → ZKey} {id : JobId} {q : String} :
    s.Lacking limit z m id q ↔ (z, m) ∈ backfillSources ∧ ∃ sc, (sc, id) ∈ (s.zsets z).entries.take limit ∧
      given (s.hash id).queue = some q ∧ s.zscore (m q) id = none := by
  have hmem : id ∈ (s.zsets z).range 0 limit ↔ ∃ sc, (sc, id) ∈ (s.zsets z).entries.take limit := by
    rw [ZSet.range, List.drop_zero, ZSet.members, ← List.map_take, List.mem_map]
    constructor
    · rintro ⟨⟨sc, _⟩, he, rfl⟩
      exact ⟨sc, he⟩
    · rintro ⟨sc, he⟩
      exact ⟨(sc, id), he, rfl⟩
  unfold Store.Lacking
  rw [hmem]
  constructor
  · rintro ⟨hsrc, ⟨sc, he⟩, hq, hq0, hnone⟩
    exact ⟨hsrc, sc, he, given_of_queue hq hq0, hnone⟩
  · rintro ⟨hsrc, sc, he, hq, hnone⟩
    obtain ⟨hq, hq0⟩ := queue_of_given hq
    exact ⟨hsrc, ⟨sc, he⟩, hq, hq0, hnone⟩

theorem Filled.copied (h : Filled s (backfillItems s limit) s' n) {z : ZKey} {m : String → ZKey} {id : JobId}
    {q : String} (hl : s.Lacking limit z m id q) : s'.zscore (m q) id = s.zscore z id ∧ q ∈ s'.queuesSeen := by
  obtain ⟨hsrc, sc, he, hq, hnone⟩ := lacking_iff.mp hl
  have hit : ((m, sc, id) : BackfillItem) ∈ backfillItems s limit := mem_backfillItems.mpr ⟨z, hsrc, he⟩
  have ht : BackfillItem.target (m, sc, id) s = some (m q) := by rw [BackfillItem.target, hq]; rfl
  refine ⟨?_, (h.seen q).mpr (Or.inr ⟨_, hit, hq, hnone⟩)⟩
  obtain ⟨sc', hsc'⟩ := Option.isSome_iff_exists.mp (h.filled _ hit _ ht)
  obtain ⟨it, hit', hent, ht'⟩ := h.added _ _ _ hnone hsc'
  obtain ⟨z', hsrc', he'⟩ := mem_backfillItems.mp hit'
  rw [hent] at he'
  obtain ⟨q', -, hq'⟩ := Option.map_eq_some_iff.mp ht'
  obtain ⟨hsame, -, -⟩ := backfillSources_inj hsrc hsrc' hq'.symm
  subst hsame
  exact hsc'.trans (ZSet.mem_entries_iff.mp (List.mem_of_mem_take he')).symm

/-- What one call leaves, whether or not it completes. -/
theorem Filled.complete_iff (h : Filled s (backfillItems s limit) s' n) :
    MirrorsComplete s s' ↔ s.WithinReach limit := by
  have hlack : ∀ k id sc, s.zscore k id = none → s'.zscore k id = some sc →
      ∃ z m q, s.Lacking limit z m id q ∧ k = m q := by
    intro k id sc hnone hsc
    obtain ⟨it, hit, hent, ht⟩ := h.added k id sc hnone hsc
    obtain ⟨z, hsrc, he⟩ := mem_backfillItems.mp hit
    obtain ⟨q, hq, hk⟩ := Option.map_eq_some_iff.mp ht
    rw [hent] at he hq
    exact ⟨z, it.1, q, lacking_iff.mpr ⟨hsrc, sc, he, hq, hk ▸ hnone⟩, hk.symm⟩
  have hseen : ∀ q, q ∈ s'.queuesSeen ↔ q ∈ s.queuesSeen ∨ ∃ z m id, s.Lacking limit z m id q := by
    intro q
    rw [h.seen q]
    refine or_congr_right ⟨?_, ?_⟩
    · rintro ⟨it, hit, hq, hnone⟩
      obtain ⟨z, hsrc, he⟩ := mem_backfillItems.mp hit
      exact ⟨z, it.1, it.2.2, lacking_iff.mpr ⟨hsrc, it.2.1, he, hq, hnone⟩⟩
    · rintro ⟨z, m, id, hl⟩
      obtain ⟨hsrc, sc, he, hq, hnone⟩ := lacking_iff.mp hl
      exact ⟨(m, sc, id), mem_backfillItems.mpr ⟨z, hsrc, he⟩, hq, hnone⟩
  constructor
  · intro hc z m hsrc id sc hsc hjob
    obtain ⟨q, hq, hmirror, hqs⟩ := hc.mirrored z m hsrc id sc hsc hjob
    refine ⟨q, hq, ?_, (hseen q).mp hqs⟩
    cases hold : s.zscore (m q) id with
    | some sc' =>
      rw [h.kept _ _ _ hold] at hmirror
      exact Or.inl hmirror
    | none =>
      obtain ⟨z', m', q', hl, hk⟩ := hlack _ _ _ hold hmirror
      obtain ⟨rfl, rfl, rfl⟩ := backfillSources_inj hsrc hl.1 hk
      exact Or.inr hl
  · intro hr
    refine ⟨fun z m hsrc id sc hsc hjob => ?_, h.frame, fun k hk => h.untouched k (fun it hit ht => ?_),
      fun k id hne => ?_, fun q hq => (hseen q).mpr (Or.inl hq), fun q hq => ?_⟩
    · obtain ⟨q, hq, hm, hqs⟩ := hr z m hsrc id sc hsc hjob
      refine ⟨q, hq, ?_, (hseen q).mpr hqs⟩
      rcases hm with hm | hm
      · exact h.kept _ _ _ hm
      · rw [(h.copied hm).1, hsc]
    · obtain ⟨z, hsrc, -⟩ := mem_backfillItems.mp hit
      obtain ⟨q, -, hq⟩ := Option.map_eq_some_iff.mp ht
      exact hk _ hsrc q hq.symm
    · cases hold : s.zscore k id with
      | some sc => exact absurd (h.kept k id sc hold) (by rw [hold] at hne; exact hne)
      | none =>
        obtain ⟨sc, hsc⟩ := Option.ne_none_iff_exists'.mp (hold ▸ hne)
        obtain ⟨z, m, q, hl, rfl⟩ := hlack k id sc hold hsc
        exact ⟨z, m, q, hl.1, hl.2.2.1, rfl, rfl, (h.copied hl).1⟩
    · refine ((hseen q).mp hq).imp_right ?_
      rintro ⟨z, m, id, hl⟩
      exact ⟨z, m, id, hl.1, ZSet.mem_of_mem_range hl.2.1, hl.2.2.1⟩

/-- **When the backfill completes.** Calling until the reply is 0 ends, and the mirrors are complete then exactly
when every entry was in its mirror or within reach of the first call. -/
theorem backfill_completes_iff (s : Store) (b : ℤ) (hb : 1 ≤ b) :
    ∃ s', (∀ n, 2 ≤ n → backfillRounds (some b) n s = some s') ∧
      (MirrorsComplete s s' ↔ s.WithinReach b.toNat) := by
  refine ⟨(fnBackfillNqStates s (some b)).1, fun n hn => ?_, ?_⟩
  · obtain ⟨k, rfl⟩ := Nat.exists_eq_add_of_le' hn
    exact backfillRounds_eq s (some b) k
  · have h := fnBackfill_filled s (some b)
    have hlimit : backfillLimit (some b) = b.toNat := if_neg (by simp; omega)
    rw [hlimit] at h
    exact h.complete_iff

end Result

/-- Two completed jobs from before the mirrors. -/
def legacyStore : Store :=
  let s := Store.empty.hset 1 (fun h => { h with queue := some "default", state := some .completed })
  let s := (s.zadd .completed 1000 1).hset 2 (fun h => { h with queue := some "default", state := some .completed })
  s.zadd .completed 2000 2

/-- One at a time, the second never gets its turn. -/
theorem legacyStore_stuck : ¬ ∀ (s : Store) (b : ℤ), 1 ≤ b → ∀ n s', backfillRounds (some b) n s = some s' →
    MirrorsComplete s s' := by
  intro h
  have hc := h legacyStore 1 (by decide) 2 _ (backfillRounds_eq legacyStore (some 1) 0)
  obtain ⟨q, hq, hmirror, -⟩ := hc.mirrored .completed .nqcompleted (by simp [backfillSources]) 2 2000
    (by decide +kernel) (by decide +kernel)
  have hdefault : (legacyStore.hash 2).queue = some "default" := by decide +kernel
  rw [hdefault] at hq
  cases hq
  have hnone : (fnBackfillNqStates legacyStore (some 1)).1.zscore (.nqcompleted "default") 2 = none := by
    decide +kernel
  rw [hnone] at hmirror
  cases hmirror

theorem legacyStore_withinReach : legacyStore.WithinReach 2 := by
  have hcompleted : (legacyStore.zsets .completed).entries = [(1000, 1), (2000, 2)] := by decide +kernel
  have hempty : ∀ z : ZKey, z ≠ .completed → legacyStore.zscore z = fun _ => none := by
    intro z hz
    funext id
    simp [legacyStore, Store.zscore, Store.zadd, Store.hset, hz, Store.empty]
  have hlack : ∀ id ∈ [1, 2], legacyStore.Lacking 2 .completed .nqcompleted id "default" := by
    intro id hid
    refine ⟨by simp [backfillSources], ?_, ?_, by decide, congrFun (hempty (.nqcompleted "default") (by decide)) id⟩
    · have hrange : (legacyStore.zsets .completed).range 0 2 = [1, 2] := by decide +kernel
      rw [hrange]
      exact hid
    · have hqueue : ∀ id ∈ [1, 2], (legacyStore.hash id).queue = some "default" := by decide +kernel
      exact hqueue id hid
  intro z m hsrc id sc hsc _
  by_cases hz : z = .completed
  · subst hz
    have hm : m = .nqcompleted := by simpa [backfillSources] using hsrc
    subst hm
    have hid : id ∈ [1, 2] := by
      have he : (sc, id) ∈ (legacyStore.zsets .completed).entries := ZSet.mem_entries_iff.mpr hsc
      rw [hcompleted] at he
      simp only [List.mem_cons, Prod.mk.injEq, List.not_mem_nil, or_false] at he ⊢
      exact he.imp And.right And.right
    have hl := hlack id hid
    exact ⟨"default", hl.2.2.1, Or.inr hl, Or.inr ⟨_, _, _, hl⟩⟩
  · rw [hempty z hz] at hsc
    cases hsc

/-- Two at a time, both do. -/
theorem legacyStore_complete : ∃ s', (∀ n, 2 ≤ n → backfillRounds (some 2) n legacyStore = some s') ∧
    MirrorsComplete legacyStore s' := by
  obtain ⟨s', hrounds, hiff⟩ := backfill_completes_iff legacyStore 2 (by decide)
  exact ⟨s', hrounds, hiff.mpr legacyStore_withinReach⟩

end Eddyq.Redis
