import Eddyq.Lib.Buckets
import Eddyq.Pg.Commits

/-!
# Rate limits over runs

A claim fills the bucket of a locked group row up to its clock, takes no more jobs of the group than there are whole
tokens, and writes the balance back with the counter, in the same transaction. `Metered` is the bucket a row has;
`Metered.claimBatch` says that a claim leaves it alone or draws from it, so that the account of `Lib.Buckets` holds over
all runs by a clock that does not go back (`rate_kept`).
-/

namespace Eddyq.Pg

open Eddyq.Lib

/-- The row of the group has that rate and that bucket. -/
structure Db.Metered (db : Db) (g : String) (r p : ℤ) (b : Bucket) : Prop where
  there : ∃ x ∈ db.groups, x.key = g
  row : ∀ x ∈ db.groups, x.key = g →
    x.rateCount = some r ∧ x.ratePeriodMs = some p ∧ x.tokens = b.tokens ∧ x.tokensRefilledAt = some b.since

section Metered

variable {db db' : Db} {g : String} {r p : ℤ} {b : Bucket} {a : ClaimArgs} {now clock : ℤ}

/-! ## The picks of a claim -/

/-- Every pick of the fast lane says of its job what the row says. -/
theorem fastLane_picked (db : Db) {a : ClaimArgs} (now : ℤ) {qs : List String} (hqs : qs ⊆ a.queues) {c : Claiming}
    (h : AllPicked db (db.jobs.map (fun j => .job j.id)) a.queues c) :
    AllPicked db (db.jobs.map (fun j => .job j.id)) a.queues (qs.foldl (claimUngrouped db (fun _ => true) a now) c) := by
  refine List.foldlRecOn _ _ (motive := fun c => AllPicked db (db.jobs.map (fun j => .job j.id)) a.queues c) h
    (fun c h q hq => ?_)
  refine claimUngrouped_forall h (fun j hj => ?_)
  obtain ⟨hm, hp, _⟩ := mem_pick hj
  simp only [ungroupedOn, Bool.and_eq_true, decide_eq_true_eq, Option.isNone_iff_eq_none] at hp
  exact ⟨List.mem_map_of_mem hm, hqs hq, j, hm, rfl, JobRow.due_pending hp.1.1, hp.2, hp.1.2⟩

/-- And every pick of the slow lane. -/
theorem slowLane_picked (db : Db) {a : ClaimArgs} (now : ℤ) {qs : List String} (hqs : qs ⊆ a.queues)
    (es : List (String × GroupState)) {c : Claiming} (h : AllPicked db (db.jobs.map (fun j => .job j.id)) a.queues c) :
    AllPicked db (db.jobs.map (fun j => .job j.id)) a.queues (es.foldl (claimGrouped db (fun _ => true) a now qs) c) := by
  refine List.foldlRecOn _ _ (motive := fun c => AllPicked db (db.jobs.map (fun j => .job j.id)) a.queues c) h
    (fun c h e _ => ?_)
  unfold claimGrouped
  split
  · exact h
  · refine acceptGrouped_forall a e.1 _ _ c h (fun j hj => ?_)
    obtain ⟨hm, hp, _⟩ := mem_pick hj
    simp only [groupedIn, Bool.and_eq_true, decide_eq_true_eq] at hp
    exact ⟨List.mem_map_of_mem hm, hqs hp.2, j, hm, rfl, JobRow.due_pending hp.1.1, rfl, hp.1.2⟩

theorem claimPicks_picked (db : Db) (a : ClaimArgs) (now clock : ℤ) (order : MapOrder) :
    AllPicked db (db.jobs.map (fun j => .job j.id)) a.queues (claimPicks db a now clock order).1 :=
  slowLane_picked db now (fun _ hq => List.mem_of_mem_filter hq) _
    (fastLane_picked db now (List.Subset.refl _) (fun _ hy => absurd hy List.not_mem_nil))

/-- The slots that some entries have for a group. -/
def slotsFor (k : String) (l : List (String × GroupState)) : ℤ :=
  ((l.filter (fun e => e.1 = k)).map (fun e => max e.2.slots 0)).sum

/-- The slow lane takes no more jobs of a group than its entries have slots. -/
theorem claimGrouped_count {free : JobId → Bool} {qs : List String} (k : String) : ∀ (l : List (String × GroupState))
    (c : Claiming), (l.foldl (claimGrouped db free a now qs) c).count (.group k) ≤ c.count (.group k) + slotsFor k l
  | [], c => by simp [slotsFor]
  | e :: l, c => by
    rw [List.foldl_cons]
    refine (claimGrouped_count k l _).trans ?_
    have hone : (claimGrouped db free a now qs c e).count (.group k) ≤
        c.count (.group k) + if e.1 = k then max e.2.slots 0 else 0 := by
      unfold claimGrouped
      split
      · have h0 : (0 : ℤ) ≤ if e.1 = k then max e.2.slots 0 else 0 := by split <;> omega
        omega
      · exact acceptGrouped_count a e.1 k _ e.2.slots c
    have hsum : slotsFor k (e :: l) = (if e.1 = k then max e.2.slots 0 else 0) + slotsFor k l := by
      by_cases he : e.1 = k <;> simp [slotsFor, he]
    omega

/-- Before the slow lane no job of a group has been taken. -/
theorem fastLane_ungrouped (db : Db) (a : ClaimArgs) (now : ℤ) (qs : List String) {c : Claiming} (h : c.Ungrouped) :
    (qs.foldl (claimUngrouped db (fun _ => true) a now) c).Ungrouped :=
  List.foldlRecOn _ _ (motive := Claiming.Ungrouped) h (fun _ h _ _ => claimUngrouped_forall h (fun _ _ => rfl))

/-- The entries for a group that has a row come from its row. -/
theorem mem_groupSlots {keys : List String} {e : String × GroupState} (hg : ∃ x ∈ db.groups, x.key = e.1)
    (he : e ∈ groupSlots (lockGroups db (fun _ => true) keys) keys (existingKeys db keys) clock) :
    ∃ x ∈ db.groups, x.key = e.1 ∧ e.2 = x.toState clock := by
  rcases List.mem_append.mp he with he | he
  · obtain ⟨x, hx, rfl⟩ := List.mem_map.mp he
    exact ⟨x, List.mem_of_mem_filter hx, rfl, rfl⟩
  · -- a key without a row
    exfalso
    obtain ⟨k, hk, rfl⟩ := List.mem_map.mp he
    obtain ⟨hkeys, hno⟩ := List.mem_filter.mp hk
    obtain ⟨x, hx, hkey⟩ := hg
    refine of_decide_eq_true hno (List.mem_map.mpr ⟨x, List.mem_filter.mpr ⟨hx, decide_eq_true ?_⟩, hkey⟩)
    rw [hkey]
    exact hkeys

/-- A group that has a row has at most one entry. -/
theorem slotsFor_groupSlots (hk : Keyed db) {x : GroupRow} (hx : x ∈ db.groups) (keys : List String) (clock : ℤ)
    (order : MapOrder) :
    slotsFor x.key (order.list (groupSlots (lockGroups db (fun _ => true) keys) keys (existingKeys db keys) clock)) ≤
      max (x.toState clock).slots 0 := by
  have hu : Claiming.Ungrouped {} := fun _ hy => absurd hy List.not_mem_nil
  have hrows : ∀ y ∈ lockGroups db (fun _ => true) keys, y ∈ db.groups ∧
      Row.group y.key ∈ db.groups.map (fun y => Row.group y.key) := by
    intro y hy
    have hmem := List.mem_of_mem_filter hy
    exact ⟨hmem, List.mem_map_of_mem (f := fun y : GroupRow => Row.group y.key) hmem⟩
  have hrow : db.Slots x.runningCount x.maxConcurrency (.group x.key) := ⟨x, hx, rfl, rfl, rfl⟩
  have honce := (groupBudget_begin hk hrow hu
    (hk.lockGroups _ keys) hrows keys clock order).once
  have hstate : ∀ e ∈ order.list (groupSlots (lockGroups db (fun _ => true) keys) keys (existingKeys db keys) clock),
      e.1 = x.key → e.2 = x.toState clock := by
    intro e he hkey
    obtain ⟨y, hy, hykey, hst⟩ := mem_groupSlots ⟨x, hx, hkey.symm⟩ ((order.perm _).mem_iff.mp he)
    rw [hst, List.inj_on_of_nodup_map hk.groups hy hx (hykey.trans hkey)]
  generalize order.list (groupSlots (lockGroups db (fun _ => true) keys) keys (existingKeys db keys) clock) = l at honce hstate
  rw [List.countP_eq_length_filter] at honce
  unfold slotsFor
  have hmem : ∀ e ∈ l.filter (fun e => e.1 = x.key), e.2 = x.toState clock := by
    intro e he
    obtain ⟨hmem, hkey⟩ := List.mem_filter.mp he
    exact hstate e hmem (of_decide_eq_true hkey)
  generalize l.filter (fun e => e.1 = x.key) = entries at honce hmem
  match entries, honce with
  | [], _ => exact le_max_right _ _
  | [e], _ => simp [hmem e (List.mem_singleton_self e)]

/-- **No more jobs of a group are picked than its row has slots.** -/
theorem claimPicks_count (hk : Keyed db) {x : GroupRow} (hx : x ∈ db.groups) (a : ClaimArgs) (now clock : ℤ)
    (order : MapOrder) :
    (claimPicks db a now clock order).1.count (.group x.key) ≤ max (x.toState clock).slots 0 := by
  unfold claimPicks
  dsimp only
  refine (claimGrouped_count x.key _ _).trans ?_
  rw [count_of_ungrouped (fastLane_ungrouped _ _ _ _ (fun _ hy => absurd hy List.not_mem_nil)), zero_add]
  exact slotsFor_groupSlots hk hx _ clock order

/-! ## The bucket in the row -/

/-- The state that a claim computes for the row. -/
theorem Db.Metered.toState (hr : 0 < r) (hp : 0 < p) (h : db.Metered g r p b) (h₀ : 0 ≤ b.tokens) {x : GroupRow}
    (hx : x ∈ db.groups) (hkey : x.key = g) (clock : ℤ) :
    (x.toState clock).rateLimited = true ∧ (x.toState clock).refilledTokens = b.level r p clock ∧
      ((max (x.toState clock).slots 0 : ℤ) : ℚ) ≤ b.level r p clock := by
  obtain ⟨hrate, hperiod, htokens, hsince⟩ := h.row x hx hkey
  have hlevel : 0 ≤ b.level r p clock :=
    Bucket.level_nonneg (by exact_mod_cast hr.le) (by exact_mod_cast hp.le) h₀
  have hfill : refilled x r p clock = b.level r p clock := by
    unfold refilled
    rw [htokens, hsince]
    exact max_eq_left hlevel
  unfold GroupRow.toState
  simp only [hrate, hperiod, hr, hp, and_self, if_true, hfill, true_and]
  -- the whole tokens
  have hfloor : (0 : ℤ) ≤ ⌊b.level r p clock⌋ := Int.floor_nonneg.mpr hlevel
  have hle : max (min (if x.paused then 0 else max (x.maxConcurrency - x.runningCount) 0)
      (min (max ⌊b.level r p clock⌋ 0) unlimited)) 0 ≤ ⌊b.level r p clock⌋ := by omega
  exact (Int.cast_le.mpr hle).trans (Int.floor_le _)

/-- The columns of a row that is not touched. -/
theorem Db.Metered.congr (h : db.Metered g r p b) (hg : db'.groups = db.groups) : db'.Metered g r p b :=
  ⟨hg ▸ h.there, hg ▸ h.row⟩

/-- The upsert of a row: of another group, or of this one with these columns. -/
theorem Db.Metered.upsert (h : db.Metered g r p b) {b' : Bucket} (new : GroupRow) {f : GroupRow → GroupRow}
    (hf : ∀ x, (f x).key = x.key) (hother : new.key ≠ g → b' = b)
    (hself : new.key = g → ∀ x ∈ db.groups, x.key = g → (f x).rateCount = some r ∧ (f x).ratePeriodMs = some p ∧
      (f x).tokens = b'.tokens ∧ (f x).tokensRefilledAt = some b'.since) :
    (upsertGroup db new f).Metered g r p b' := by
  obtain ⟨x₀, hx₀, hkey₀⟩ := h.there
  unfold upsertGroup
  split
  · refine ⟨⟨_, mem_updateWhere_of_mem hx₀, ?_⟩, fun x hx hkey => ?_⟩
    · split
      · rw [hf]
        exact hkey₀
      · exact hkey₀
    · obtain ⟨y, hy, rfl⟩ := mem_updateWhere.mp hx
      split at hkey
      · next hyk =>
        rw [if_pos hyk]
        rw [hf] at hkey
        have hnew : new.key = g := (of_decide_eq_true hyk).symm.trans hkey
        exact hself hnew y hy hkey
      · next hyk =>
        rw [if_neg hyk]
        have hnew : new.key ≠ g := fun he => hyk (decide_eq_true (hkey.trans he.symm))
        rw [hother hnew]
        exact h.row y hy hkey
  · next hnone =>
    have hnew : new.key ≠ g := by
      intro he
      exact hnone (List.any_eq_true.mpr ⟨x₀, hx₀, decide_eq_true (hkey₀.trans he.symm)⟩)
    rw [hother hnew]
    refine ⟨⟨x₀, List.mem_append_left _ hx₀, hkey₀⟩, fun x hx hkey => ?_⟩
    rcases List.mem_append.mp hx with hx | hx
    · exact h.row x hx hkey
    · exact absurd ((List.mem_singleton.mp hx) ▸ hkey) hnew

/-- The counter of another group. -/
theorem Db.Metered.bump_ne (h : db.Metered g r p b) (slots : List (String × GroupState)) (rows : List JobRow) {key : String}
    (hkey : key ≠ g) : (bumpGroup slots rows clock db key).Metered g r p b := by
  obtain ⟨new, f, heq, hnew, _, hf⟩ := bumpGroup_eq slots rows clock db key
  rw [heq]
  exact h.upsert new (fun x => (hf x).1) (fun _ => rfl) (fun he => absurd (hnew.symm.trans he) hkey)

/-- The counter of the group, with its balance. -/
theorem Db.Metered.bump_self (h : db.Metered g r p b) {slots : List (String × GroupState)} (rows : List JobRow)
    {st : GroupState} (hst : (slots.find? (fun s => s.1 = g)).map Prod.snd = some st) (hlim : st.rateLimited = true)
    (clock : ℤ) :
    (bumpGroup slots rows clock db g).Metered g r p ⟨max (st.refilledTokens - groupDelta rows g) 0, clock⟩ := by
  unfold bumpGroup
  rw [hst]
  simp only [hlim, if_true]
  refine h.upsert _ (fun _ => rfl) (fun hne => absurd rfl hne) (fun _ x hx hkey => ?_)
  obtain ⟨hrate, hperiod, _⟩ := h.row x hx hkey
  exact ⟨hrate, hperiod, rfl, rfl⟩

/-- The loop over the groups of a claim. -/
theorem Db.Metered.bumps {b' : Bucket} {slots : List (String × GroupState)} {rows : List JobRow} :
    ∀ (keys : List String) {db : Db}, keys.Nodup → db.Metered g r p b →
      (g ∈ keys → ∀ db : Db, db.Metered g r p b → (bumpGroup slots rows clock db g).Metered g r p b') →
      (keys.foldl (bumpGroup slots rows clock) db).Metered g r p (if g ∈ keys then b' else b)
  | [], _, _, h, _ => by simpa using h
  | key :: keys, db, hnd, h, hself => by
    rw [List.nodup_cons] at hnd
    rw [List.foldl_cons]
    by_cases hkey : key = g
    · subst hkey
      have hrest : ∀ (keys : List String) {db : Db}, key ∉ keys → db.Metered key r p b' →
          (keys.foldl (bumpGroup slots rows clock) db).Metered key r p b' := by
        intro keys
        induction keys with
        | nil => exact fun _ h => h
        | cons k keys ih =>
          intro db hno h
          rw [List.mem_cons, not_or] at hno
          exact ih hno.2 (h.bump_ne slots rows (fun he => hno.1 he.symm))
      rw [if_pos List.mem_cons_self]
      exact hrest keys hnd.1 (hself List.mem_cons_self db h)
    · have hmem : g ∈ key :: keys ↔ g ∈ keys := by simp [Ne.symm hkey]
      simp only [hmem]
      exact bumps keys hnd.2 (h.bump_ne slots rows hkey) (fun hin => hself (List.mem_cons_of_mem _ hin))

theorem Db.Metered.bumpQueues (h : db.Metered g r p b) (rows : List JobRow) (names : List String) :
    (names.foldl (bumpQueue rows) db).Metered g r p b :=
  List.foldlRecOn _ _ (motive := fun db : Db => db.Metered g r p b) h (fun _ h _ _ => h.congr rfl)

/-- A pick from a group has an entry among the slots. -/
theorem claimPicks_entry (db : Db) (a : ClaimArgs) (now clock : ℤ) (order : MapOrder) :
    ∀ y ∈ (claimPicks db a now clock order).1.accepted, ∀ k, y.group = some k →
      ∃ e ∈ (claimPicks db a now clock order).2, e.1 = k := by
  refine List.foldlRecOn _ _ (motive := fun c : Claiming => ∀ y ∈ c.accepted, ∀ k, y.group = some k →
    ∃ e ∈ (claimPicks db a now clock order).2, e.1 = k) ?_ (fun c h e he => ?_)
  · intro y hy k hk
    have hnone := fastLane_ungrouped db a now a.queues
      (c := { budget := queueBudgets (readQueues db a.queues) (readQueues db (bindingNames (readQueues db a.queues))) })
      (fun _ hy => absurd hy List.not_mem_nil) y hy
    rw [hnone] at hk
    cases hk
  · unfold claimGrouped
    split
    · exact h
    · refine acceptGrouped_forall a e.1 _ _ c h (fun j _ k hk => ?_)
      cases hk
      exact ⟨e, (order.perm _).mem_iff.mp he, rfl⟩

/-- A group is in the loop when one of the rows is in it. -/
theorem mem_groupKeys {rows : List JobRow} : g ∈ (rows.filterMap (·.groupKey)).dedup ↔ 0 < groupDelta rows g := by
  rw [List.mem_dedup, List.mem_filterMap, groupDelta, Int.natCast_pos, List.countP_pos_iff]
  simp

/-- The writes of a claim: the bucket is written with the first job of the group, or left alone. -/
theorem Db.Metered.commitClaim (h : db.Metered g r p b) {b' : Bucket} {slots : List (String × GroupState)} {ids : List JobId}
    (hself : 0 < groupDelta (claimedRows db ids a.worker now) g → ∀ db' : Db, db'.Metered g r p b →
      (bumpGroup slots (claimedRows db ids a.worker now) clock db' g).Metered g r p b') :
    (commitClaim db a slots ids now clock).Metered g r p
      (if 0 < groupDelta (claimedRows db ids a.worker now) g then b' else b) := by
  rw [commitClaim_tables]
  refine Db.Metered.bumpQueues ?_ _ _
  have hjobs : ({ db with jobs := updateWhere (fun j => j.id ∈ ids) (·.start a.worker now) db.jobs } : Db).Metered g r p b :=
    h.congr rfl
  have hloop := hjobs.bumps _ (List.nodup_dedup ((claimedRows db ids a.worker now).filterMap (·.groupKey)))
    (fun hin => hself (mem_groupKeys.mp hin))
  simpa only [mem_groupKeys] using hloop

/-- The entry that a claim finds for a group of which it has picked a job is that of its row. -/
theorem claimPicks_find (hk : Keyed db) {x : GroupRow} (hx : x ∈ db.groups) {order : MapOrder}
    (hpos : 0 < (claimPicks db a now clock order).1.count (.group x.key)) :
    ((claimPicks db a now clock order).2.find? (fun e => e.1 = x.key)).map Prod.snd = some (x.toState clock) := by
  obtain ⟨y, hy, hgroup⟩ := List.countP_pos_iff.mp (Int.natCast_pos.mp hpos)
  obtain ⟨e, he, hkey⟩ := claimPicks_entry db a now clock order y hy x.key (of_decide_eq_true hgroup)
  cases hfind : (claimPicks db a now clock order).2.find? (fun e => e.1 = x.key) with
  | none => exact absurd (decide_eq_true hkey) (List.find?_eq_none.mp hfind e he)
  | some e' =>
    have hkey' : e'.1 = x.key := by simpa using List.find?_some hfind
    obtain ⟨z, hz, hzkey, hst⟩ := mem_groupSlots ⟨x, hx, hkey'.symm⟩ (List.mem_of_find?_eq_some hfind)
    rw [Option.map_some, hst, List.inj_on_of_nodup_map hk.groups hz hx (hzkey.trans hkey')]

/-- **A claim and the bucket**: it takes nothing of the group and leaves the bucket alone, or it takes no more than there
is and writes back what is left. -/
theorem Db.Metered.claimBatch (hr : 0 < r) (hp : 0 < p) (hk : Keyed db) (h : db.Metered g r p b) (h₀ : 0 ≤ b.tokens)
    (a : ClaimArgs) (now clock : ℤ) (order : MapOrder) {k : ℕ}
    (hcount : (claimBatch db a now clock order).2.countP (·.groupKey = some g) = k) :
    (k : ℚ) ≤ b.level r p clock ∧
      (claimBatch db a now clock order).1.Metered g r p (if 0 < k then ⟨b.level r p clock - k, clock⟩ else b) := by
  have hlevel : 0 ≤ b.level r p clock := Bucket.level_nonneg (by exact_mod_cast hr.le) (by exact_mod_cast hp.le) h₀
  obtain ⟨x, hx, rfl⟩ := h.there
  obtain ⟨hlim, hfill, hroom⟩ := h.toState hr hp h₀ hx rfl clock
  rcases claimBatch_inv db a now clock order with heq | heq
  · rw [heq] at hcount ⊢
    subst hcount
    exact ⟨by simpa using hlevel, by simpa using h⟩
  · rw [heq] at hcount ⊢
    have hdelta : groupDelta (claimedRows db (claimPicks db a now clock order).1.ids a.worker now) x.key = k := by
      rw [← hcount, List.countP_map]
      rfl
    -- what is started was picked, and what is picked has a slot
    have hpicked : (k : ℤ) ≤ (claimPicks db a now clock order).1.count (.group x.key) := by
      rw [← hdelta, groupDelta_claimed]
      exact startedOf_le hk (claimPicks_picked db a now clock order) (.group x.key)
    have hle : (k : ℚ) ≤ b.level r p clock := by
      have hslots : (k : ℤ) ≤ max (x.toState clock).slots 0 := hpicked.trans (claimPicks_count hk hx a now clock order)
      calc (k : ℚ) ≤ ((max (x.toState clock).slots 0 : ℤ) : ℚ) := by exact_mod_cast hslots
        _ ≤ b.level r p clock := hroom
    refine ⟨hle, ?_⟩
    have hself : 0 < groupDelta (claimedRows db (claimPicks db a now clock order).1.ids a.worker now) x.key →
        ∀ db' : Db, db'.Metered x.key r p b →
          (bumpGroup (claimPicks db a now clock order).2
            (claimedRows db (claimPicks db a now clock order).1.ids a.worker now) clock db' x.key).Metered x.key r p
              ⟨b.level r p clock - k, clock⟩ := by
      intro hpos db' h'
      rw [hdelta] at hpos
      have hfind := claimPicks_find hk hx (hpos.trans_le hpicked)
      have hbump := h'.bump_self (claimedRows db (claimPicks db a now clock order).1.ids a.worker now) hfind hlim clock
      rw [hfill, hdelta, Int.cast_natCast, max_eq_left (sub_nonneg.mpr hle)] at hbump
      exact hbump
    have hcommit := h.commitClaim hself
    simp only [hdelta, Int.natCast_pos] at hcommit
    exact hcommit

theorem metered_setRate (db : Db) (g : String) (r p now : ℤ) :
    (upsertGroup db { key := g, rateCount := some r, ratePeriodMs := some p, tokens := r, tokensRefilledAt := some now }
      (fun x => { x with rateCount := some r, ratePeriodMs := some p, tokens := r, tokensRefilledAt := some now })).Metered
        g r p ⟨r, now⟩ := by
  unfold upsertGroup
  split
  · next hany =>
    obtain ⟨x₀, hx₀, hkey₀⟩ := List.any_eq_true.mp hany
    refine ⟨⟨_, mem_updateWhere_of_mem hx₀, ?_⟩, fun x hx hkey => ?_⟩
    · rw [if_pos hkey₀]
      exact of_decide_eq_true hkey₀
    · obtain ⟨y, hy, rfl⟩ := mem_updateWhere.mp hx
      split at hkey
      · next hyk =>
        rw [if_pos hyk]
        exact ⟨rfl, rfl, rfl, rfl⟩
      · next hyk => exact absurd (decide_eq_true hkey) hyk
  · next hnone =>
    refine ⟨⟨_, List.mem_append_right _ (List.mem_singleton_self _), rfl⟩, fun x hx hkey => ?_⟩
    rcases List.mem_append.mp hx with hx | hx
    · exact absurd (List.any_eq_true.mpr ⟨x, hx, decide_eq_true hkey⟩) hnone
    · rw [List.mem_singleton.mp hx]
      exact ⟨rfl, rfl, rfl, rfl⟩

end Metered

/-! ## Runs -/

/-- The tables, the time, the rate of the group, and the times at which its jobs were started since the rate was set. -/
structure Rated where
  db : Db
  time : ℤ
  rate : ℤ
  period : ℤ
  started : List ℤ := []

section Rated

variable (g : String)

/-- The rate columns of the row are as they were. -/
def SameRate (db db' : Db) : Prop :=
  (∃ x ∈ db'.groups, x.key = g) ∧ ∀ x' ∈ db'.groups, x'.key = g → ∃ x ∈ db.groups, x.key = g ∧
    x'.rateCount = x.rateCount ∧ x'.ratePeriodMs = x.ratePeriodMs ∧ x'.tokens = x.tokens ∧
    x'.tokensRefilledAt = x.tokensRefilledAt

/-- One transaction. The claims and `set_rate` read a clock that does not go back; whatever else happens leaves the rate
columns of the row alone. -/
inductive Rated.Step : Rated → Rated → Prop
  | claim {z : Rated} (a : ClaimArgs) (now clock : ℤ) (order : MapOrder) (le : z.time ≤ clock) :
      Step z { z with
        db := (claimBatch z.db a now clock order).1
        time := clock
        started := List.replicate ((claimBatch z.db a now clock order).2.countP (·.groupKey = some g)) clock ++ z.started }
  | rolledBack {z : Rated} {clock : ℤ} (le : z.time ≤ clock) : Step z { z with time := clock }
  | setRate {z : Rated} {count period : Nat} {now : ℤ} {db : Db} (le : z.time ≤ now)
      (ok : groupSetRate z.db g count period now = .ok db) :
      Step z { db := db, time := now, rate := toI32 count, period := toI32 period }
  | other {z : Rated} {db : Db} (keyed : Keyed db) (same : SameRate g z.db db) : Step z { z with db := db }

/-- The runs after a first `set_rate`. -/
def Rated.Reached (z : Rated) : Prop :=
  ∃ (db₀ db : Db) (count period : Nat) (now : ℤ), Keyed db₀ ∧ groupSetRate db₀ g count period now = .ok db ∧
    Reach (fun z (_ : Unit) z' => Rated.Step g z z') { db := db, time := now, rate := toI32 count, period := toI32 period } z

/-- The rate limit, in a state and for every claim that comes next. -/
structure Rated.Limited (z : Rated) : Prop where
  range : ∀ x ∈ z.db.groups, x.key = g → 0 ≤ x.tokens ∧ x.tokens ≤ z.rate
  /-- The balance that a claim writes back is not cut off at zero. -/
  floor : ∀ a now clock order, z.time ≤ clock → ∀ x ∈ z.db.groups, x.key = g →
    ((claimBatch z.db a now clock order).2.countP (·.groupKey = some g) : ℚ) ≤ (x.toState clock).refilledTokens
  /-- A claim that takes nothing of the group leaves its bucket as it is. -/
  idle : ∀ a now clock order, z.time ≤ clock → (claimBatch z.db a now clock order).2.countP (·.groupKey = some g) = 0 →
    ∀ x' ∈ (claimBatch z.db a now clock order).1.groups, x'.key = g → ∃ x ∈ z.db.groups, x.key = g ∧
      x'.tokens = x.tokens ∧ x'.tokensRefilledAt = x.tokensRefilledAt ∧
      ∀ later, refilled x' z.rate z.period later = refilled x z.rate z.period later
  windows : ∀ s t : ℤ, s ≤ t → (countWithin s t z.started : ℚ) ≤ z.rate + z.rate * (t - s) / z.period

/-- What every transaction keeps. -/
structure Rated.Inv (z : Rated) (b : Bucket) : Prop where
  keyed : Keyed z.db
  metered : z.db.Metered g z.rate z.period b
  rate : 0 < z.rate
  period : 0 < z.period
  since : b.since ≤ z.time
  kept : b.Kept z.rate z.period z.started

variable {g} {z z' : Rated} {b : Bucket}

theorem Keyed.upsertGroup {db : Db} (hk : Keyed db) (new : GroupRow) {f : GroupRow → GroupRow}
    (hf : ∀ x, (f x).key = x.key) : Keyed (upsertGroup db new f) := by
  obtain ⟨f1, f2, f3⟩ := upsertGroup_frame db new f
  refine ⟨?_, ?_, upsertGroup_keys hk.groups new hf, ?_⟩
  · rw [f1]
    exact hk.ids
  · rw [f1, f3]
    exact hk.fresh
  · rw [f2]
    exact hk.queues

theorem groupSetRate_inv {db db' : Db} {count period : Nat} {now : ℤ} (hk : Keyed db)
    (h : groupSetRate db g count period now = .ok db') :
    Rated.Inv g { db := db', time := now, rate := toI32 count, period := toI32 period } ⟨toI32 count, now⟩ := by
  unfold groupSetRate at h
  dsimp only at h
  split at h
  · cases h
  · next hpos =>
    cases h
    rw [not_or, not_le, not_le] at hpos
    refine ⟨?_, metered_setRate db g _ _ now, hpos.1, hpos.2, le_rfl, ?_⟩
    · exact hk.upsertGroup _ (fun _ => rfl)
    · exact .fresh (by exact_mod_cast hpos.1.le) (by exact_mod_cast hpos.2.le) now

theorem Keyed.claimBatch {db : Db} (h : Keyed db) (a : ClaimArgs) (now clock : ℤ) (order : MapOrder) :
    Keyed (claimBatch db a now clock order).1 := by
  rcases claimBatch_inv db a now clock order with heq | heq
  · rw [heq]
    exact h
  · rw [heq]
    exact h.commitClaim a _ _ now clock

theorem Rated.Inv.step (h : z.Inv g b) (hs : Rated.Step g z z') : ∃ b', z'.Inv g b' := by
  have hr : (0 : ℚ) ≤ z.rate := by exact_mod_cast h.rate.le
  have hp : (0 : ℚ) ≤ z.period := by exact_mod_cast h.period.le
  cases hs with
  | claim a now clock order le =>
    obtain ⟨hle, hm⟩ := h.metered.claimBatch h.rate h.period h.keyed h.kept.nonneg a now clock order rfl
    have hkeyed := h.keyed.claimBatch a now clock order
    split at hm
    · exact ⟨_, hkeyed, hm, h.rate, h.period, le_rfl, h.kept.draw hr hp (h.since.trans le) hle⟩
    · next hzero =>
      have hnone : (claimBatch z.db a now clock order).2.countP (·.groupKey = some g) = 0 := by omega
      refine ⟨b, hkeyed, hm, h.rate, h.period, h.since.trans le, ?_⟩
      simp only [hnone]
      exact h.kept
  | rolledBack le => exact ⟨b, h.keyed, h.metered, h.rate, h.period, h.since.trans le, h.kept⟩
  | setRate le ok => exact ⟨_, groupSetRate_inv h.keyed ok⟩
  | other keyed same =>
    refine ⟨b, keyed, ⟨same.1, fun x' hx' hkey => ?_⟩, h.rate, h.period, h.since, h.kept⟩
    obtain ⟨x, hx, hxkey, h1, h2, h3, h4⟩ := same.2 x' hx' hkey
    rw [h1, h2, h3, h4]
    exact h.metered.row x hx hxkey

theorem Rated.Reached.inv (h : z.Reached g) : ∃ b, z.Inv g b := by
  obtain ⟨db₀, db, count, period, now, hk, hset, hz⟩ := h
  refine hz.inv (P := fun z => ∃ b, z.Inv g b) ⟨_, groupSetRate_inv hk hset⟩ ?_
  rintro z _ z' ⟨b, hb⟩ hs
  exact hb.step hs

theorem Rated.Reached.step (h : z.Reached g) (hs : Rated.Step g z z') : z'.Reached g := by
  obtain ⟨db₀, db, count, period, now, hk, hset, hz⟩ := h
  exact ⟨db₀, db, count, period, now, hk, hset, hz.step (a := ()) hs⟩

end Rated

/-- **The rate limit**: over every run by a clock that does not go back, the balance is between zero and the rate, claims
take no more than there is, and no window has more starts than a full bucket and its length allow. -/
theorem rate_limited (g : String) (z : Rated) (h : z.Reached g) : z.Limited g := by
  obtain ⟨b, hb⟩ := h.inv
  refine ⟨fun x hx hkey => ?_, fun a now clock order _ x hx hkey => ?_, fun a now clock order _ hnone x' hx' hkey => ?_,
    hb.kept.windows⟩
  · obtain ⟨_, _, htokens, _⟩ := hb.metered.row x hx hkey
    rw [htokens]
    exact ⟨hb.kept.nonneg, hb.kept.full⟩
  · obtain ⟨_, hfill, _⟩ := hb.metered.toState hb.rate hb.period hb.kept.nonneg hx hkey clock
    rw [hfill]
    exact (hb.metered.claimBatch hb.rate hb.period hb.keyed hb.kept.nonneg a now clock order rfl).1
  · obtain ⟨_, hm⟩ := hb.metered.claimBatch hb.rate hb.period hb.keyed hb.kept.nonneg a now clock order hnone
    rw [if_neg (Nat.lt_irrefl 0)] at hm
    obtain ⟨x, hx, hxkey⟩ := hb.metered.there
    obtain ⟨_, _, h3, h4⟩ := hm.row x' hx' hkey
    obtain ⟨_, _, h3', h4'⟩ := hb.metered.row x hx hxkey
    have htokens : x'.tokens = x.tokens := h3.trans h3'.symm
    have hsince : x'.tokensRefilledAt = x.tokensRefilledAt := h4.trans h4'.symm
    refine ⟨x, hx, hxkey, htokens, hsince, fun later => ?_⟩
    rw [refilled, refilled, htokens, hsince]

/-- Two jobs of a group. -/
def rateJobs : Db :=
  [Op.enqueue { kind := "mail", payload := .null, groupKey := some "g" } 0,
   .enqueue { kind := "mail", payload := .null, groupKey := some "g" } 0].foldl (Op.apply noCron) Db.empty

/-- One job in a second. -/
def rateDb : Db :=
  upsertGroup rateJobs { key := "g", rateCount := some 1, ratePeriodMs := some 1000, tokens := 1, tokensRefilledAt := some 0 }
    (fun x => { x with rateCount := some 1, ratePeriodMs := some 1000, tokens := 1, tokensRefilledAt := some 0 })

def rateArgs : ClaimArgs where
  worker := "w"
  batchSize := 4
  kinds := ["mail"]
  queues := ["default"]

def rateOrder : MapOrder where
  list := fun l => l
  perm := MapOrder.asRead

theorem rate_limited_once : ∃ z : Rated, z.Reached "g" ∧ z.started = [10] ∧ z.Limited "g" := by
  have h : Rated.Reached "g" { db := rateDb, time := 0, rate := 1, period := 1000 } :=
    ⟨rateJobs, rateDb, 1, 1000, 0, ⟨by decide, by decide, by decide, by decide⟩, rfl, .refl _⟩
  have h := h.step (.claim rateArgs 10 10 rateOrder (by decide))
  exact ⟨_, h, by decide +kernel, rate_limited "g" _ h⟩

end Eddyq.Pg
