import Eddyq.Pg.CapSafety
import Eddyq.Pg.Admin

/-!
# New queue rows between the statements of claims

`set_concurrency`, `set_paused` and `set_timeout` of `named_queue` are one statement: `COUNT(*)` of the running jobs in its
snapshot, and an upsert that waits for whoever holds the row or is inserting it. The counter update of a claim is another:
it bumps the row that is committed, and does nothing when there is none. A claim here notes which of the two happened to it,
for each of its queues (`BumpTx`), and its commit raises the counters it has bumped.

`seeds_cover`: the counter of a new row is not below its running jobs, as long as no claim that has found no row is open
together with a setter that has taken its count. Else neither of them sees the other's jobs (`seed_misses`).
-/

namespace Eddyq.Pg

open Eddyq.Lib

/-! ## The setters -/

/-- What a setter sets. -/
inductive Setting
  | concurrency (cap : ℤ)
  | paused (on : Bool)
  | timeout (timeoutMs : Option Nat)

/-- The column it sets. -/
def Setting.set (q : QueueRow) : Setting → QueueRow
  | .concurrency cap => { q with maxConcurrency := max cap 0 }
  | .paused on => { q with paused := on }
  | .timeout timeoutMs => { q with defaultTimeoutMs := (timeoutMs.map toI32).filter (0 < ·) }

/-- The upsert, with the count of its snapshot. -/
def Setting.write (s : Setting) (db : Db) (name : String) (count : ℤ) : Db :=
  upsertQueue db (s.set { name := name, runningCount := count }) s.set

/-- The call. -/
def Setting.call (s : Setting) (db : Db) (name : String) : Db :=
  match s with
  | .concurrency cap => queueSetConcurrency db name cap
  | .paused on => queueSetPaused db name on
  | .timeout timeoutMs => queueSetTimeout db name timeoutMs

/-- **Without interruption the upsert is the call.** -/
theorem Setting.write_alone (s : Setting) (db : Db) (name : String) : s.write db name (db.runningOn name) = s.call db name := by
  cases s <;> rfl

/-- A setter under way. -/
structure SetterTx where
  name : String
  setting : Setting
  /-- The count of its snapshot. -/
  count : Option ℤ := none
  held : List Row := []

inductive SetterStmt (free : Row → Prop) (db : Db) (x : SetterTx) : SetterTx → Prop
  | count (at' : x.count = none) : SetterStmt free db x { x with count := some (db.runningOn x.name) }
  /-- The insert, or the update of the row there is. -/
  | lock (at' : x.count.isSome) (hfree : free (.queue x.name)) :
      SetterStmt free db x { x with held := x.held ++ [.queue x.name] }

inductive SetterCommit (db : Db) (x : SetterTx) : Db → Prop
  | mk {n : ℤ} (at' : x.count = some n) (held : .queue x.name ∈ x.held) :
      SetterCommit db x (x.setting.write db x.name n)

/-! ## The claims -/

/-- A claim, with the queues whose counter update has found a row and those whose has not. -/
structure BumpTx where
  tx : ClaimTx
  bumped : List String := []
  missed : List String := []

/-- The rows a claim starts, when it writes. -/
def BumpTx.rows (db : Db) (c : Claiming) (x : BumpTx) : List JobRow := claimedRows db c.ids x.tx.args.worker x.tx.now

/-- The statements of a claim. -/
inductive BumpStmt (free : Row → Prop) (db : Db) (x : BumpTx) : BumpTx → Prop
  | early {y : ClaimTx} (at' : ∀ c slots, x.tx.phase ≠ .writing c slots) (h : ClaimStmt free db x.tx y) :
      BumpStmt free db x { x with tx := y }
  | group {c : Claiming} {slots : List (String × GroupState)} {k : String} (at' : x.tx.phase = .writing c slots)
      (mine : k ∈ (x.rows db c).filterMap (·.groupKey)) (hfree : free (.group k)) :
      BumpStmt free db x { x with tx := { x.tx with held := x.tx.held ++ [.group k] } }
  | hit {c : Claiming} {slots : List (String × GroupState)} {q : QueueRow} (at' : x.tx.phase = .writing c slots)
      (mine : q.name ∈ (x.rows db c).map (·.queue)) (fresh : q.name ∉ x.bumped ++ x.missed) (row : q ∈ db.queues)
      (hfree : free (.queue q.name)) :
      BumpStmt free db x { x with
        tx := { x.tx with held := x.tx.held ++ [.queue q.name] }, bumped := x.bumped ++ [q.name] }
  | miss {c : Claiming} {slots : List (String × GroupState)} {n : String} (at' : x.tx.phase = .writing c slots)
      (mine : n ∈ (x.rows db c).map (·.queue)) (fresh : n ∉ x.bumped ++ x.missed) (row : ∀ q ∈ db.queues, q.name ≠ n) :
      BumpStmt free db x { x with missed := x.missed ++ [n] }

/-- The writes of a claim that has bumped these queues. -/
def commitBumped (db : Db) (a : ClaimArgs) (slots : List (String × GroupState)) (ids : List JobId) (bumped : List String)
    (now clock : ℤ) : Db :=
  let rows := claimedRows db ids a.worker now
  let db := { db with jobs := updateWhere (fun j => j.id ∈ ids) (·.start a.worker now) db.jobs }
  let db := (rows.filterMap (·.groupKey)).dedup.foldl (bumpGroup slots rows clock) db
  bumped.foldl (bumpQueue rows) db

/-- The commit, when every counter has been updated. -/
inductive BumpCommit (db : Db) (x : BumpTx) : Db → Prop
  | mk {c : Claiming} {slots : List (String × GroupState)} (at' : x.tx.phase = .writing c slots)
      (groups : ∀ k ∈ (x.rows db c).filterMap (·.groupKey), .group k ∈ x.tx.held)
      (queues : ∀ n ∈ (x.rows db c).map (·.queue), n ∈ x.bumped ++ x.missed) :
      BumpCommit db x (commitBumped db x.tx.args slots c.ids x.bumped x.tx.now x.tx.clock)

/-- Claims and setters. -/
inductive SeedBegins : BumpTx ⊕ SetterTx → Prop
  | claim {x : ClaimTx} (h : Tx.Begins (.claim x)) : SeedBegins (.inl { tx := x })
  | setter (name : String) (setting : Setting) : SeedBegins (.inr { name := name, setting := setting })

def seedEngine : Engine Db (BumpTx ⊕ SetterTx) Row where
  begins := SeedBegins
  held x r := Sum.elim (fun x => r ∈ x.tx.held) (fun x => r ∈ x.held) x
  stmt free db x x' := Sum.LiftRel (BumpStmt free db) (SetterStmt free db) x x'
  commits db x db' := Sum.elim (fun x => BumpCommit db x db') (fun x => SetterCommit db x db') x

/-- No claim that has found no row of the queue is open together with a setter that has its count. -/
def Apart {τ : Type} (n : String) (z : Sessions Db (BumpTx ⊕ SetterTx) τ) : Prop :=
  ∀ t t' x y, z.opened t = some (.inl x) → z.opened t' = some (.inr y) → n ∈ x.missed → y.name = n → y.count = none

/-- A step; in a careful run the two are apart after it. -/
def SeedStep {τ : Type} [DecidableEq τ] (careful : Prop) (n : String) (z : Sessions Db (BumpTx ⊕ SetterTx) τ) (t : τ)
    (z' : Sessions Db (BumpTx ⊕ SetterTx) τ) : Prop :=
  seedEngine.Step z t z' ∧ (careful → Apart n z')

/-! ## What the commits write -/

section Commits

variable {db db' : Db} {a : ClaimArgs} {slots : List (String × GroupState)} {ids : List JobId} {bumped : List String}
  {now clock : ℤ}

/-- A commit differs from that of `claimBatch` in the queue rows only. -/
theorem commitBumped_eq (hn : bumped.Nodup) : commitBumped db a slots ids bumped now clock =
    { commitClaim db a slots ids now clock with
      queues := db.queues.map (fun q => if q.name ∈ bumped then { q with
        runningCount := q.runningCount + startedOf db ids (.queue q.name) } else q) } := by
  rw [commitClaim_tables, bumpQueues_eq _ _ _ (List.nodup_dedup _)]
  unfold commitBumped
  dsimp only
  rw [bumpQueues_eq _ _ _ hn, bumpGroups_queues]
  simp only [queueDelta_claimed]

/-- **When every row that is there has been bumped, it is that of `claimBatch`.** -/
theorem commitBumped_all (hn : bumped.Nodup) (hsub : bumped ⊆ (claimedRows db ids a.worker now).map (·.queue))
    (hall : ∀ q ∈ db.queues, q.name ∈ (claimedRows db ids a.worker now).map (·.queue) → q.name ∈ bumped) :
    commitBumped db a slots ids bumped now clock = commitClaim db a slots ids now clock := by
  rw [commitBumped_eq hn]
  have hq : (commitClaim db a slots ids now clock).queues = db.queues.map (fun q => if q.name ∈ bumped then { q with
      runningCount := q.runningCount + startedOf db ids (.queue q.name) } else q) := by
    rw [commitClaim_tables, bumpQueues_eq _ _ _ (List.nodup_dedup _), bumpGroups_queues]
    refine List.map_congr_left (fun q hq => ?_)
    rw [queueDelta_claimed]
    by_cases hin : q.name ∈ bumped
    · rw [if_pos hin, if_pos (List.mem_dedup.mpr (hsub hin))]
    · rw [if_neg hin, if_neg (fun hd => hin (hall q hq (List.mem_dedup.mp hd)))]
  rw [← hq]

theorem commitBumped_keyed (hk : Keyed db) (hn : bumped.Nodup) : Keyed (commitBumped db a slots ids bumped now clock) := by
  have hk' := hk.commitClaim a slots ids now clock
  rw [commitBumped_eq hn]
  refine ⟨hk'.ids, hk'.fresh, hk'.groups, ?_⟩
  rw [List.map_map]
  refine (List.map_congr_left (fun q _ => ?_)) ▸ hk.queues
  simp only [Function.comp_apply]
  split <;> rfl

theorem commitBumped_runsAt (a : ClaimArgs) (slots : List (String × GroupState)) (now clock : ℤ) (hn : bumped.Nodup)
    (hids : ∀ j ∈ db.jobs, j.id ∈ ids → j.state = .pending) (r : Row) :
    (commitBumped db a slots ids bumped now clock).runsAt r = db.runsAt r + startedOf db ids r := by
  rw [← runsAt_commitClaim a slots now clock hids r, commitBumped_eq hn]
  rfl

/-- The queue rows after a claim. -/
theorem commitBumped_row (hn : bumped.Nodup) {q' : QueueRow} (hq' : q' ∈ (commitBumped db a slots ids bumped now clock).queues) :
    ∃ q ∈ db.queues, q'.name = q.name ∧ q'.runningCount = q.runningCount +
      if q.name ∈ bumped then (startedOf db ids (.queue q.name) : ℤ) else 0 := by
  rw [commitBumped_eq hn] at hq'
  obtain ⟨q, hq, rfl⟩ := List.mem_map.mp hq'
  refine ⟨q, hq, ?_⟩
  split
  · exact ⟨rfl, rfl⟩
  · exact ⟨rfl, (add_zero _).symm⟩

theorem commitBumped_kept (a : ClaimArgs) (slots : List (String × GroupState)) (ids : List JobId) (now clock : ℤ)
    (hn : bumped.Nodup) {q : QueueRow} (hq : q ∈ db.queues) :
    ∃ q' ∈ (commitBumped db a slots ids bumped now clock).queues, q'.name = q.name := by
  rw [commitBumped_eq hn]
  refine ⟨_, List.mem_map_of_mem hq, ?_⟩
  split <;> rfl

theorem Setting.set_name (s : Setting) (q : QueueRow) : (s.set q).name = q.name := by cases s <;> rfl

theorem Setting.new_name (s : Setting) (name : String) (count : ℤ) :
    (s.set { name := name, runningCount := count }).name = name := s.set_name _

theorem Setting.set_count (s : Setting) (q : QueueRow) : (s.set q).runningCount = q.runningCount := by cases s <;> rfl

theorem Setting.write_runsAt (s : Setting) (db : Db) (name : String) (count : ℤ) (r : Row) :
    (s.write db name count).runsAt r = db.runsAt r := by
  unfold Setting.write upsertQueue
  split <;> rfl

theorem Setting.write_keyed (hk : Keyed db) (s : Setting) (name : String) (count : ℤ) : Keyed (s.write db name count) := by
  unfold Setting.write upsertQueue
  split
  · refine ⟨hk.ids, hk.fresh, hk.groups, ?_⟩
    rw [map_updateWhere (fun q => s.set_name q)]
    exact hk.queues
  · next hno =>
    refine ⟨hk.ids, hk.fresh, hk.groups, ?_⟩
    rw [List.map_append, List.map_singleton, List.nodup_append']
    refine ⟨hk.queues, List.nodup_singleton _, fun m hm hm' => hno ?_⟩
    obtain ⟨q, hq, rfl⟩ := List.mem_map.mp hm
    exact List.any_eq_true.mpr ⟨q, hq, decide_eq_true (List.mem_singleton.mp hm')⟩

theorem Setting.write_spares (s : Setting) (db : Db) (name : String) (count : ℤ) {own : Row → Prop} (hown : own (.queue name)) :
    Spares own db (s.write db name count) := by
  unfold Setting.write upsertQueue
  split
  · refine ⟨fun j hj _ => hj, fun g hg _ => hg, fun q hq hno => ?_⟩
    have hne : ¬ decide (q.name = (s.set { name := name, runningCount := count }).name) = true := by
      intro he
      have he : q.name = name := (of_decide_eq_true he).trans (s.new_name name count)
      exact hno (he ▸ hown)
    have hkeep := mem_updateWhere_of_mem (p := fun q => q.name = (s.set { name := name, runningCount := count }).name)
      (f := fun q => s.set q) hq
    rwa [if_neg hne] at hkeep
  · exact ⟨fun j hj _ => hj, fun g hg _ => hg, fun q hq _ => List.mem_append_left _ hq⟩

/-- The rows after a setter: those there were, or a new one with its count. -/
theorem Setting.write_row (s : Setting) {name : String} {count : ℤ} {q' : QueueRow}
    (hq' : q' ∈ (s.write db name count).queues) :
    (∃ q ∈ db.queues, q.name = q'.name ∧ q.runningCount = q'.runningCount) ∨
    (q'.name = name ∧ q'.runningCount = count ∧ ∀ q ∈ db.queues, q.name ≠ name) := by
  unfold Setting.write upsertQueue at hq'
  split at hq'
  · obtain ⟨q, hq, rfl⟩ := mem_updateWhere.mp hq'
    refine Or.inl ⟨q, hq, ?_⟩
    split
    · exact ⟨(s.set_name q).symm, (s.set_count q).symm⟩
    · exact ⟨rfl, rfl⟩
  · next hno =>
    rcases List.mem_append.mp hq' with hq' | hq'
    · exact Or.inl ⟨q', hq', rfl, rfl⟩
    · rw [List.mem_singleton.mp hq', s.set_name, s.set_count]
      refine Or.inr ⟨rfl, rfl, fun q hq he => hno ?_⟩
      exact List.any_eq_true.mpr ⟨q, hq, decide_eq_true (he.trans (s.new_name name count).symm)⟩

/-- Every row that was there is there. -/
theorem Setting.write_kept (s : Setting) (name : String) (count : ℤ) {q : QueueRow} (hq : q ∈ db.queues) :
    ∃ q' ∈ (s.write db name count).queues, q'.name = q.name := by
  unfold Setting.write upsertQueue
  split
  · refine ⟨_, mem_updateWhere_of_mem hq, ?_⟩
    split
    · exact s.set_name q
    · rfl
  · exact ⟨q, List.mem_append_left _ hq, rfl⟩

end Commits

/-! ## The discipline -/

/-- The picks of a claim are sound, and what it has bumped are rows that it holds. -/
structure BumpTx.Sound (db : Db) (x : BumpTx) : Prop where
  claim : x.tx.Sound db
  nodup : x.bumped.Nodup
  rows : ∀ n ∈ x.bumped, .queue n ∈ x.tx.held ∧ ∃ q ∈ db.queues, q.name = n

/-- What is true of an open transaction. -/
def SeedOk (db : Db) (x : BumpTx ⊕ SetterTx) : Prop := Sum.elim (fun x => x.Sound db) (fun _ => True) x

section Discipline

variable {db db' : Db} {free own : Row → Prop} {x : BumpTx}

/-- A claim in its last phase takes more rows. -/
theorem ClaimTx.Sound.holds {y : ClaimTx} (h : y.Sound db) {c : Claiming} {slots : List (String × GroupState)}
    (at' : y.phase = .writing c slots) (r : Row) : ClaimTx.Sound db { y with held := y.held ++ [r] } := by
  have hp := h.allPicked at'
  unfold ClaimTx.Sound
  rw [at']
  exact hp.mono (List.subset_append_left _ _)

theorem ClaimStmt.held {y y' : ClaimTx} (hs : ClaimStmt free db y y') : y.held ⊆ y'.held := by
  cases hs with
  | readQueues | walk | readExisting | write => exact List.Subset.refl _
  | lockQueues | pickUngrouped | lockGroups | pickGrouped | lockCounter => exact List.subset_append_left _ _

theorem BumpStmt.sound {x' : BumpTx} (hk : Keyed db) (h : x.Sound db) (hs : BumpStmt free db x x') : x'.Sound db := by
  cases hs with
  | @early y at' hst =>
    refine ⟨hst.sound hk h.claim, h.nodup, fun n hn => ⟨?_, (h.rows n hn).2⟩⟩
    exact hst.held (h.rows n hn).1
  | group at' mine hfree =>
    exact ⟨h.claim.holds at' _, h.nodup, fun n hn => ⟨List.mem_append_left _ (h.rows n hn).1, (h.rows n hn).2⟩⟩
  | @hit c slots q at' mine fresh row hfree =>
    have hnew : q.name ∉ x.bumped := fun hin => fresh (List.mem_append_left _ hin)
    refine ⟨h.claim.holds at' _, ?_, fun n hn => ?_⟩
    · rw [List.nodup_append']
      refine ⟨h.nodup, List.nodup_singleton _, fun n hn hn' => hnew ?_⟩
      rwa [List.mem_singleton.mp hn'] at hn
    · rcases List.mem_append.mp hn with hn | hn
      · exact ⟨List.mem_append_left _ (h.rows n hn).1, (h.rows n hn).2⟩
      · rw [List.mem_singleton.mp hn]
        exact ⟨List.mem_append_right _ (List.mem_singleton_self _), q, row, rfl⟩
  | miss at' mine fresh row => exact ⟨h.claim, h.nodup, h.rows⟩

theorem BumpTx.Sound.spared (h : x.Sound db) (hs : Spares own db db') (ho : ∀ r ∈ x.tx.held, ¬ own r) : x.Sound db' := by
  refine ⟨h.claim.spared hs ho, h.nodup, fun n hn => ?_⟩
  obtain ⟨hheld, q, hq, rfl⟩ := h.rows n hn
  exact ⟨hheld, q, hs.queues q hq (ho _ hheld), rfl⟩

/-- **A claim changes only rows it holds**, also when it has missed some. -/
theorem BumpCommit.spares (hk : Keyed db) (h : x.Sound db) (hc : BumpCommit db x db') : Spares (· ∈ x.tx.held) db db' := by
  cases hc with
  | @mk c slots at' groups queues =>
    rw [commitBumped_eq h.nodup]
    refine ⟨fun j hj hno => (h.claim.allPicked at').jobs_spared _ _ _ _ hj hno, fun g hg hno => ?_, fun q hq hno => ?_⟩
    · exact hk.groups_spared _ _ _ _ hg (fun hin => hno (groups _ hin))
    · refine List.mem_map.mpr ⟨q, hq, ?_⟩
      rw [if_neg (fun hin => hno (h.rows _ hin).1)]

/-- **Claims and setters keep to the rows they hold.** -/
theorem seedEngine_disciplined : seedEngine.Disciplined Keyed SeedOk Spares where
  begins_held := by
    intro x r hb
    cases hb with
    | claim hb =>
      cases hb
      exact List.not_mem_nil
    | setter => exact List.not_mem_nil
  begins_ok := by
    intro db x _ hb
    cases hb with
    | claim hb =>
      cases hb
      exact ⟨trivial, List.nodup_nil, fun _ hn => absurd hn List.not_mem_nil⟩
    | setter => exact trivial
  stmt_held := by
    intro free db x x' r hs hr
    have hnew : ∀ {held : List Row} {r' : Row}, free r' → r ∈ held ++ [r'] → r ∈ held ∨ free r := by
      intro held r' hfree hr
      rcases List.mem_append.mp hr with hr | hr
      · exact Or.inl hr
      · exact Or.inr (List.mem_singleton.mp hr ▸ hfree)
    cases hs with
    | inl hs =>
      cases hs with
      | early at' hst => exact (engine_disciplined (T := fun _ => False) (fun _ hv => hv.elim)).stmt_held (.claim hst) hr
      | group at' mine hfree => exact hnew hfree hr
      | hit at' mine fresh row hfree => exact hnew hfree hr
      | miss => exact Or.inl hr
    | inr hs =>
      cases hs with
      | count => exact Or.inl hr
      | lock at' hfree => exact hnew hfree hr
  stmt_ok := by
    intro free db x x' hk hx hs
    cases hs with
    | inl hs => exact hs.sound hk hx
    | inr hs => exact trivial
  commits_inv := by
    rintro db (x | x) db' hk hx hc
    · cases hc with
      | mk at' groups queues => exact commitBumped_keyed hk (BumpTx.Sound.nodup hx)
    · cases hc with
      | mk at' held => exact Setting.write_keyed hk _ _ _
  commits_same := by
    rintro db (x | x) db' hk hx hc
    · exact BumpCommit.spares hk hx hc
    · cases hc with
      | mk at' held => exact Setting.write_spares _ _ _ _ held
  stable := by
    rintro own db db' (x | x) hs ho hx
    · exact BumpTx.Sound.spared hx hs ho
    · exact trivial

end Discipline

/-! ## The counter of a new row -/

section Seeded

variable {τ : Type} [DecidableEq τ] {n : String} {z z' : Sessions Db (BumpTx ⊕ SetterTx) τ} {t : τ}

/-- The queue has no row. -/
def Db.Unlisted (db : Db) (n : String) : Prop := ∀ q ∈ db.queues, q.name ≠ n

/-- The row of the queue is covered; as long as there is none, the counts of the setters are not below the running jobs, and
who has found none was right. -/
structure Seeded (n : String) (z : Sessions Db (BumpTx ⊕ SetterTx) τ) : Prop where
  row : ∀ q ∈ z.store.queues, q.name = n → (z.store.runsAt (.queue n) : ℤ) ≤ q.runningCount
  missed : ∀ t x, z.opened t = some (.inl x) → n ∈ x.missed → z.store.Unlisted n
  counted : ∀ t y k, z.opened t = some (.inr y) → y.name = n → y.count = some k → z.store.Unlisted n →
    (z.store.runsAt (.queue n) : ℤ) ≤ k

/-- A transaction is open that was not, or is not where it was. -/
theorem Seeded.set (h : Seeded n z) {l : BumpTx ⊕ SetterTx} (hm : ∀ x, l = .inl x → n ∈ x.missed → z.store.Unlisted n)
    (hc : ∀ y k, l = .inr y → y.name = n → y.count = some k → z.store.Unlisted n → (z.store.runsAt (.queue n) : ℤ) ≤ k) :
    Seeded n { z with opened := Function.update z.opened t (some l) } := by
  refine ⟨h.row, fun t' x hx => ?_, fun t' y k hy => ?_⟩
  · rcases opened_of_set hx with hl | hold
    · exact hm x hl.symm
    · exact h.missed t' x hold
  · rcases opened_of_set hy with hl | hold
    · exact hc y k hl.symm
    · exact h.counted t' y k hold

/-- A statement of a claim. -/
theorem Seeded.bump (h : Seeded n z) {free : Row → Prop} {x x' : BumpTx} (now : z.opened t = some (.inl x))
    (hs : BumpStmt free z.store x x') : Seeded n { z with opened := Function.update z.opened t (some (.inl x')) } := by
  refine h.set (fun y hy hn => ?_) (fun _ _ => nofun)
  cases hy
  cases hs with
  | early | group | hit => exact h.missed t x now hn
  | miss at' mine fresh row =>
    rcases List.mem_append.mp hn with hn | hn
    · exact h.missed t x now hn
    · rw [List.mem_singleton.mp hn]
      exact row

/-- A part of the statement of a setter. -/
theorem Seeded.setter (h : Seeded n z) {free : Row → Prop} {y y' : SetterTx} (now : z.opened t = some (.inr y))
    (hs : SetterStmt free z.store y y') : Seeded n { z with opened := Function.update z.opened t (some (.inr y')) } := by
  refine h.set (fun _ => nofun) (fun x k hx hname hk hun => ?_)
  cases hx
  cases hs with
  | count at' =>
    have hname : y.name = n := hname
    have hk : z.store.runningOn y.name = k := Option.some.inj hk
    rw [← hk, hname]
    exact le_refl _
  | lock at' hfree => exact h.counted t y k now hname hk hun

/-- **The commit of a claim**: it has bumped the row, or there is none and no setter has its count. -/
theorem Seeded.commitClaim (h : Seeded n z) (hk : Keyed z.store) (ha : Apart n z) {x : BumpTx}
    (now : z.opened t = some (.inl x)) (hx : x.Sound z.store) {db : Db} (hc : BumpCommit z.store x db) :
    Seeded n { store := db, opened := Function.update z.opened t none } := by
  cases hc with
  | @mk c slots at' groups queues =>
    have hruns := commitBumped_runsAt x.tx.args slots x.tx.now x.tx.clock hx.nodup (hx.claim.pending hk at') (.queue n)
    -- a claim that starts jobs of the queue has looked for its row
    have hlooked : startedOf z.store c.ids (.queue n) ≠ 0 → n ∈ x.bumped ∨ n ∈ x.missed := by
      intro hne
      by_contra hno
      have hout : n ∉ ((x.rows z.store c).map (·.queue)).dedup := fun hin =>
        hno (List.mem_append.mp (queues n (List.mem_dedup.mp hin)))
      exact hne (startedOf_queue_eq_zero hout)
    refine ⟨fun q' hq' hname => ?_, fun t' y hy hn => ?_, fun t' y k hy hname hcount hun => ?_⟩
    · obtain ⟨q, hq, hqn, hqc⟩ := commitBumped_row hx.nodup hq'
      have hq₀ : q.name = n := hqn.symm.trans hname
      have hold := h.row q hq hq₀
      rw [hruns, hqc]
      push_cast
      split
      · rw [hq₀]
        omega
      · next hno =>
        have hzero : startedOf z.store c.ids (.queue n) = 0 := by
          by_contra hne
          rcases hlooked hne with hin | hin
          · exact hno (hq₀ ▸ hin)
          · exact h.missed t x now hin q hq hq₀
        rw [hzero]
        push_cast
        omega
    · obtain ⟨_, hy⟩ := opened_of_closed hy
      intro q' hq' hname
      obtain ⟨q, hq, hqn, _⟩ := commitBumped_row hx.nodup hq'
      exact h.missed t' y hy hn q hq (hqn.symm.trans hname)
    · obtain ⟨_, hy⟩ := opened_of_closed hy
      have hun₀ : z.store.Unlisted n := by
        intro q hq hqn
        obtain ⟨q', hq', hqn'⟩ := commitBumped_kept x.tx.args slots c.ids x.tx.now x.tx.clock hx.nodup hq
        exact hun q' hq' (hqn'.trans hqn)
      have hold := h.counted t' y k hy hname hcount hun₀
      have hzero : startedOf z.store c.ids (.queue n) = 0 := by
        by_contra hne
        rcases hlooked hne with hin | hin
        · obtain ⟨_, q, hq, hqn⟩ := hx.rows n hin
          exact hun₀ q hq hqn
        · rw [ha t t' x y now hy hin hname] at hcount
          cases hcount
      rw [hruns, hzero]
      push_cast
      omega

/-- **The commit of a setter**: a new row begins with its count, and nobody who has found no row is open. -/
theorem Seeded.commitSetter (h : Seeded n z) (ha : Apart n z) {y : SetterTx} (now : z.opened t = some (.inr y)) {db : Db}
    (hc : SetterCommit z.store y db) : Seeded n { store := db, opened := Function.update z.opened t none } := by
  cases hc with
  | @mk k at' held =>
    have hruns := y.setting.write_runsAt z.store y.name k (.queue n)
    refine ⟨fun q' hq' hname => ?_, fun t' x hx hn => ?_, fun t' y' k' hy' hname hcount hun => ?_⟩
    · rw [hruns]
      rcases y.setting.write_row hq' with ⟨q, hq, hqn, hqc⟩ | ⟨hqn, hqc, hun⟩
      · rw [← hqc]
        exact h.row q hq (hqn.trans hname)
      · rw [hqc]
        have hy : y.name = n := hqn.symm.trans hname
        exact h.counted t y k now hy at' (hy ▸ hun)
    · obtain ⟨_, hx⟩ := opened_of_closed hx
      intro q' hq' hname
      rcases y.setting.write_row hq' with ⟨q, hq, hqn, _⟩ | ⟨hqn, _, _⟩
      · exact h.missed t' x hx hn q hq (hqn.trans hname)
      · rw [ha t' t x y hx now hn (hqn.symm.trans hname)] at at'
        cases at'
    · obtain ⟨_, hy'⟩ := opened_of_closed hy'
      rw [hruns]
      refine h.counted t' y' k' hy' hname hcount (fun q hq hqn => ?_)
      obtain ⟨q', hq', hqn'⟩ := y.setting.write_kept y.name k hq
      exact hun q' hq' (hqn'.trans hqn)

/-- **One step.** -/
theorem Seeded.step (h : Seeded n z) (hkept : seedEngine.Kept Keyed SeedOk z) (ha : Apart n z) (hs : seedEngine.Step z t z') :
    Seeded n z' := by
  cases hs with
  | begin idle hb =>
    cases hb with
    | claim hb =>
      refine h.set (fun x hx hn => ?_) (fun _ _ => nofun)
      cases hx
      exact absurd hn List.not_mem_nil
    | setter name setting =>
      refine h.set (fun _ => nofun) (fun y k hy _ hk => ?_)
      cases hy
      cases hk
  | @stmt l l' now hst =>
    cases hst with
    | inl hst => exact h.bump now hst
    | inr hst => exact h.setter now hst
  | @commit l db now hc =>
    cases l with
    | inl x => exact h.commitClaim hkept.inv ha now (hkept.ok now) hc
    | inr y => exact h.commitSetter ha now hc
  | rollback =>
    refine ⟨h.row, fun t' x hx => h.missed t' x (opened_of_closed hx).2, fun t' y k hy => ?_⟩
    exact h.counted t' y k (opened_of_closed hy).2

end Seeded

/-- What holds in every state of a careful run. -/
theorem seeds_kept {τ : Type} [DecidableEq τ] {n : String} {z₀ z : Sessions Db (BumpTx ⊕ SetterTx) τ}
    (hidle : ∀ t, z₀.opened t = none) (hk : Keyed z₀.store) (hnew : z₀.store.Unlisted n)
    (h : Reach (SeedStep True n) z₀ z) : Keyed z.store ∧ Seeded n z := by
  have hinit : seedEngine.Kept Keyed SeedOk z₀ := seedEngine_disciplined.kept hidle hk (Reach.refl _)
  have hall : seedEngine.Kept Keyed SeedOk z ∧ Apart n z ∧ Seeded n z := by
    refine Reach.inv (P := fun z => seedEngine.Kept Keyed SeedOk z ∧ Apart n z ∧ Seeded n z) h
      ⟨hinit, fun t _ _ _ ht => ?_, fun q hq hqn => absurd hqn (hnew q hq), fun t _ ht => ?_, fun t _ _ ht => ?_⟩
      (fun z t z' ⟨hkept, ha, hs⟩ hstep => ⟨seedEngine_disciplined.step hkept hstep.1, hstep.2 trivial,
        hs.step hkept ha hstep.1⟩)
    · rw [hidle] at ht
      cases ht
    · rw [hidle] at ht
      cases ht
    · rw [hidle] at ht
      cases ht
  exact ⟨hall.1.inv, hall.2.2⟩

/-- **A new cap is honest**: in every interleaving of claims and setters that keeps the two apart, the counter of a new queue
row is not below the running jobs of the queue, and no later claim passes its cap. -/
theorem seeds_cover {τ : Type} [DecidableEq τ] (n : String) (z₀ z : Sessions Db (BumpTx ⊕ SetterTx) τ)
    (hidle : ∀ t, z₀.opened t = none) (hk : Keyed z₀.store) (hnew : z₀.store.Unlisted n)
    (h : Reach (SeedStep True n) z₀ z) (q : QueueRow) (hq : q ∈ z.store.queues) (hname : q.name = n) :
    (z.store.runsAt (.queue n) : ℤ) ≤ q.runningCount ∧
    (q.maxConcurrency < unlimited → ∀ later : Traffic τ, Reach engine.Step (quiet z.store) later →
      (later.store.runsAt (.queue n) : ℤ) ≤ max q.maxConcurrency (z.store.runsAt (.queue n))) := by
  obtain ⟨hkeyed, hseeded⟩ := seeds_kept hidle hk hnew h
  have hle := hseeded.row q hq hname
  refine ⟨hle, fun hcap later hlater => ?_⟩
  have hkept := traffic_kept (fun _ => rfl) hkeyed hlater
  obtain ⟨_, _, _, hbound⟩ := hkept.inv.holds
    { row := .queue n, cap := q.maxConcurrency, bound := max q.maxConcurrency (z.store.runsAt (.queue n)) }
    ⟨⟨q.runningCount, ⟨q, hq, hname, rfl, rfl⟩, hle⟩, rfl, fun _ _ => hcap⟩
  exact hbound

/-! ## One claim and one setter -/

section Pair

variable {careful : Prop} {n : String} {db db' : Db} {c : Option BumpTx} {o : Option SetterTx} {x x' : BumpTx}
  {y y' : SetterTx} {z₀ : Sessions Db (BumpTx ⊕ SetterTx) Bool}

/-- At most one of each. -/
def pair (db : Db) (c : Option BumpTx) (o : Option SetterTx) : Sessions Db (BumpTx ⊕ SetterTx) Bool where
  store := db
  opened
    | false => c.map .inl
    | true => o.map .inr

theorem apart_pair (h : ∀ x ∈ c, ∀ y ∈ o, n ∈ x.missed → y.name = n → y.count = none) : Apart n (pair db c o) := by
  intro t t' x y hx hy
  cases t with
  | true =>
    obtain ⟨_, _, he⟩ := Option.map_eq_some_iff.mp hx
    cases he
  | false =>
    cases t' with
    | false =>
      obtain ⟨_, _, he⟩ := Option.map_eq_some_iff.mp hy
      cases he
    | true =>
      obtain ⟨_, hx, he⟩ := Option.map_eq_some_iff.mp hx
      cases he
      obtain ⟨_, hy, he⟩ := Option.map_eq_some_iff.mp hy
      cases he
      exact h x hx y hy

theorem pair_claim (db db' : Db) (c c' : Option BumpTx) (o : Option SetterTx) :
    pair db' c' o = { store := db', opened := Function.update (pair db c o).opened false (c'.map Sum.inl) } := by
  unfold pair
  congr 1
  funext t
  cases t with
  | false => simp only [Function.update_self]
  | true => rfl

theorem pair_setter (db db' : Db) (c : Option BumpTx) (o o' : Option SetterTx) :
    pair db' c o' = { store := db', opened := Function.update (pair db c o).opened true (o'.map Sum.inr) } := by
  unfold pair
  congr 1
  funext t
  cases t with
  | true => simp only [Function.update_self]
  | false => rfl

theorem claim_begin (h : Reach (SeedStep careful n) z₀ (pair db none o)) {x : ClaimTx} (hb : Tx.Begins (.claim x)) :
    Reach (SeedStep careful n) z₀ (pair db (some { tx := x }) o) := by
  have hidle : (pair db none o).opened false = none := rfl
  refine h.step (a := false) ⟨?_, fun _ => apart_pair (fun x hx _ _ hn => ?_)⟩
  · rw [pair_claim db db none (some { tx := x })]
    exact .begin hidle (SeedBegins.claim hb)
  · cases hx
    exact absurd hn List.not_mem_nil

theorem claim_stmt (h : Reach (SeedStep careful n) z₀ (pair db (some x) o))
    (hs : BumpStmt (seedEngine.Free (pair db (some x) o) false) db x x') (ha : careful → Apart n (pair db (some x') o)) :
    Reach (SeedStep careful n) z₀ (pair db (some x') o) := by
  have hopen : (pair db (some x) o).opened false = some (Sum.inl x) := rfl
  have hst : seedEngine.stmt (seedEngine.Free (pair db (some x) o) false) db (Sum.inl x) (Sum.inl x') := Sum.LiftRel.inl hs
  refine h.step (a := false) ⟨?_, ha⟩
  rw [pair_claim db db (some x) (some x')]
  exact .stmt hopen hst

theorem claim_commit (h : Reach (SeedStep careful n) z₀ (pair db (some x) o)) (hc : BumpCommit db x db') :
    Reach (SeedStep careful n) z₀ (pair db' none o) := by
  have hopen : (pair db (some x) o).opened false = some (Sum.inl x) := rfl
  refine h.step (a := false) ⟨?_, fun _ => apart_pair nofun⟩
  rw [pair_claim db db' (some x) none]
  exact .commit hopen hc

theorem setter_begin (h : Reach (SeedStep careful n) z₀ (pair db c none)) (name : String) (setting : Setting) :
    Reach (SeedStep careful n) z₀ (pair db c (some { name := name, setting := setting })) := by
  have hidle : (pair db c none).opened true = none := rfl
  refine h.step (a := true) ⟨?_, fun _ => apart_pair (fun _ _ y hy _ _ => ?_)⟩
  · rw [pair_setter db db c none (some { name := name, setting := setting })]
    exact .begin hidle (SeedBegins.setter name setting)
  · cases hy
    rfl

theorem setter_stmt (h : Reach (SeedStep careful n) z₀ (pair db c (some y)))
    (hs : SetterStmt (seedEngine.Free (pair db c (some y)) true) db y y') (ha : careful → Apart n (pair db c (some y'))) :
    Reach (SeedStep careful n) z₀ (pair db c (some y')) := by
  have hopen : (pair db c (some y)).opened true = some (Sum.inr y) := rfl
  have hst : seedEngine.stmt (seedEngine.Free (pair db c (some y)) true) db (Sum.inr y) (Sum.inr y') := Sum.LiftRel.inr hs
  refine h.step (a := true) ⟨?_, ha⟩
  rw [pair_setter db db c (some y) (some y')]
  exact .stmt hopen hst

theorem setter_commit (h : Reach (SeedStep careful n) z₀ (pair db c (some y))) (hc : SetterCommit db y db') :
    Reach (SeedStep careful n) z₀ (pair db' c none) := by
  have hopen : (pair db c (some y)).opened true = some (Sum.inr y) := rfl
  refine h.step (a := true) ⟨?_, fun _ => apart_pair (fun _ _ _ => nofun)⟩
  rw [pair_setter db db' c (some y) none]
  exact .commit hopen hc

/-- A claim alone sees every row free. -/
theorem free_claim (c : Option BumpTx) (r : Row) : seedEngine.Free (pair db c none) false r := by
  intro t l hne hl
  cases t with
  | false => exact absurd rfl hne
  | true => cases hl

/-- The last phase. -/
def ClaimPhase.isLast : ClaimPhase → Bool
  | .writing .. => true
  | _ => false

/-- The phases of a claim before its last, when it is alone. -/
theorem claim_early {x : ClaimTx} : ∀ (k : Nat),
    (∀ i < k, ((·.next db [])^[i] x).ready db [] ∧ ((·.next db [])^[i] x).phase.isLast = false) →
    Reach (SeedStep careful n) z₀ (pair db (some { tx := x }) none) →
    Reach (SeedStep careful n) z₀ (pair db (some { tx := (·.next db [])^[k] x }) none)
  | 0, _, h => h
  | k + 1, hgo, h => by
    have hk := claim_early k (fun i hi => hgo i (Nat.lt_succ_of_lt hi)) h
    obtain ⟨hready, hlast⟩ := hgo k (Nat.lt_succ_self k)
    have hphase : ∀ c slots, ((·.next db [])^[k] x).phase ≠ .writing c slots := by
      intro c slots he
      rw [he] at hlast
      cases hlast
    have hfree : ∀ r, decide (r ∉ ([] : List Row)) = true ↔ seedEngine.Free (pair db _ none) false r := fun r =>
      iff_of_true (decide_eq_true List.not_mem_nil) (free_claim (some { tx := (·.next db [])^[k] x }) r)
    rw [Function.iterate_succ_apply']
    refine claim_stmt hk (.early hphase (ClaimTx.next_stmt hfree hready)) (fun _ => apart_pair (fun x hx _ _ hn => ?_))
    cases hx
    exact absurd hn List.not_mem_nil

end Pair

/-- Two jobs on a queue without a row. -/
def newQueue : Db where
  jobs := [newJob { kind := "mail", payload := .null, queue := "slow" } 1 1000,
    newJob { kind := "mail", payload := .null, queue := "slow" } 2 1000]
  nextJob := 3

theorem newQueue_keyed : Keyed newQueue := ⟨by decide, by decide, by decide, by decide⟩

/-- A claim of one job. -/
def slowClaim : ClaimTx where
  args := { worker := "a", batchSize := 1, kinds := ["mail"], queues := ["slow"] }
  now := 2000
  clock := 2000

/-- It has its job, and has found no row to bump. -/
def slowMissed : BumpTx where
  tx := (·.next newQueue [])^[7] slowClaim
  missed := ["slow"]

theorem slowMissed_reached (careful : Prop) :
    Reach (SeedStep careful "slow") (pair newQueue none none) (pair newQueue (some slowMissed) none) := by
  have h : Reach (SeedStep careful "slow") (pair newQueue none none) (pair newQueue none none) := .refl _
  have h := claim_begin h (.claim slowClaim.args 2000 2000 (by decide))
  have h := claim_early 7 (by decide +kernel) h
  exact claim_stmt h (.miss rfl (by decide +kernel) (by decide) (by decide)) (fun _ => apart_pair (fun _ _ _ => nofun))

/-- `set_concurrency("slow", 1)` with its count, and with the row. -/
def slowCap (count : ℤ) (held : List Row) : SetterTx where
  name := "slow"
  setting := .concurrency 1
  count := some count
  held := held

/-- The setter alone. -/
theorem slowCap_alone {careful : Prop} {db : Db} {z₀ : Sessions Db (BumpTx ⊕ SetterTx) Bool}
    (h : Reach (SeedStep careful "slow") z₀ (pair db none none)) :
    Reach (SeedStep careful "slow") z₀ (pair (Setting.call (.concurrency 1) db "slow") none none) := by
  have h := setter_begin h "slow" (.concurrency 1)
  have h := setter_stmt h (.count rfl) (fun _ => apart_pair nofun)
  have hfree : seedEngine.Free (pair db none (some (slowCap (db.runningOn "slow") []))) true (.queue "slow") := by
    intro t l hne hl
    cases t with
    | false => cases hl
    | true => exact absurd rfl hne
  have h := setter_stmt h (.lock rfl hfree) (fun _ => apart_pair nofun)
  have h := setter_commit h (.mk rfl (List.mem_singleton_self _))
  rw [Setting.write_alone] at h
  exact h

/-- The claim first, then the setter. -/
def slowSeeded : Db :=
  Setting.call (.concurrency 1) (commitBumped newQueue slowClaim.args [] [1] [] 2000 2000) "slow"

/-- The setter counts the job that runs. -/
theorem slowSeeded_covered : slowSeeded.queues.map (·.runningCount) = [1] ∧
    ∀ q ∈ slowSeeded.queues, q.name = "slow" → (slowSeeded.runsAt (.queue "slow") : ℤ) ≤ q.runningCount ∧
      (q.maxConcurrency < unlimited → ∀ later : Traffic Bool, Reach engine.Step (quiet slowSeeded) later →
        (later.store.runsAt (.queue "slow") : ℤ) ≤ max q.maxConcurrency (slowSeeded.runsAt (.queue "slow"))) := by
  have h := claim_commit (slowMissed_reached True) (.mk rfl (by decide +kernel) (by decide +kernel))
  have h := slowCap_alone h
  refine ⟨by decide +kernel, fun q hq hname => ?_⟩
  exact seeds_cover "slow" (pair newQueue none none) (pair slowSeeded none none) (fun t => by cases t <;> rfl) newQueue_keyed
    nofun h q hq hname

/-- The setter between the counter update of the claim and its commit. -/
def slowUnseen : Db :=
  commitBumped (Setting.call (.concurrency 1) newQueue "slow") slowClaim.args [] [1] [] 2000 2000

/-- **Neither sees the other**: the cap is 1, the counter is 0 while a job runs, and the next claim takes the other job. -/
theorem seed_misses : ∃ z : Sessions Db (BumpTx ⊕ SetterTx) Bool,
    Reach (SeedStep False "slow") (pair newQueue none none) z ∧ (∀ t, z.opened t = none) ∧
    z.store.queues.map (fun q => (q.name, q.maxConcurrency, q.runningCount)) = [("slow", 1, 0)] ∧
    z.store.runsAt (.queue "slow") = 1 ∧
    ∃ later : Traffic Unit, Reach engine.Step (quiet z.store) later ∧ later.store.runsAt (.queue "slow") = 2 := by
  have h := setter_begin (slowMissed_reached False) "slow" (.concurrency 1)
  have h := setter_stmt h (.count rfl) False.elim
  have hfree : seedEngine.Free (pair newQueue (some slowMissed) (some (slowCap 0 []))) true (.queue "slow") := by
    intro t l hne hl
    cases t with
    | false =>
      cases hl
      show Row.queue "slow" ∉ slowMissed.tx.held
      decide +kernel
    | true => exact absurd rfl hne
  have h := setter_stmt h (.lock rfl hfree) False.elim
  have hwrite : SetterCommit newQueue (slowCap 0 [.queue "slow"]) (Setting.call (.concurrency 1) newQueue "slow") :=
    .mk rfl (List.mem_singleton_self _)
  have h := setter_commit h hwrite
  have h := claim_commit h (.mk rfl (by decide +kernel) (by decide +kernel))
  refine ⟨_, h, fun t => by cases t <;> rfl, by decide +kernel, by decide +kernel, _,
    claimBatch_alone () slowUnseen { slowClaim.args with worker := "b" } 3000 3000
      { list := fun l => l, perm := MapOrder.asRead },
    by decide +kernel⟩

end Eddyq.Pg
