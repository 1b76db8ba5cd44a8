import Eddyq.Lib.Locks
import Eddyq.Pg.Tables
import Eddyq.Listing
import Mathlib.Data.List.Dedup

/-!
# Cached statistics

`terminal_counts` keeps the counts of finished jobs in `eddyq_stats_cache`. A transaction of it runs statement by statement
(`StatsStmt`) beside any number of others and beside transactions that move jobs; the refresh is `DELETE`, `INSERT` and the
stamp under a transaction-scoped advisory lock, and whoever reads the cache does so without the lock. The transactions keep to
what the lock covers (`statsEngine_disciplined`), so the counts of a caller are those of one refresh
(`terminalCounts_untorn`).
-/

namespace Eddyq.Pg

open Eddyq.Lib

/-- `TERMINAL_STATS_TTL_SECS`, in milliseconds. -/
def terminalStatsTtl : ℤ := 60 * 1000

/-! ## Tables -/

/-- `QueueStateCount`. -/
@[ext]
structure StateCount where
  queue : String
  state : JobState
  count : Nat
  deriving DecidableEq

/-- A row of `eddyq_stats_cache`; the version tells the tuples of one key apart. -/
structure CacheRow extends StateCount where
  version : Nat
  deriving DecidableEq

/-- The primary key. -/
def StateCount.key (c : StateCount) : String × JobState := (c.queue, c.state)

/-- `SELECT queue, state, COUNT(*) ... WHERE state IN ('completed', 'failed', 'cancelled') GROUP BY queue, state`. -/
def countTerminal (jobs : List JobRow) : List StateCount :=
  ((jobs.filter (fun j => j.state.terminal)).map (fun j => (j.queue, j.state))).dedup.map fun k =>
    { queue := k.1, state := k.2, count := jobs.countP (fun j => j.queue = k.1 ∧ j.state = k.2) }

/-- The rows of a refresh. -/
def cacheRows (version : Nat) (jobs : List JobRow) : List CacheRow :=
  (countTerminal jobs).map fun c => { toStateCount := c, version := version }

/-- The jobs at one instant. -/
structure Snapshot where
  time : ℤ
  jobs : List JobRow

/-- What is committed: the clock and the jobs, the cache with its stamp, and the snapshots of the refreshes so far. -/
structure StatsDb where
  clock : ℤ
  jobs : List JobRow
  cache : List CacheRow := []
  computedAt : Option ℤ := none
  refreshes : List Snapshot := []

/-- `snapshot_fresh`. -/
def StatsDb.fresh (db : StatsDb) : Option Bool := db.computedAt.map fun c => decide (db.clock - terminalStatsTtl < c)

/-! ## Transactions -/

/-- The lock `STATS_LOCK_KEY`. -/
inductive StatsLock
  | stats

/-- What a refresh has written. -/
structure Refresh where
  start : ℤ
  deleted : List CacheRow
  inserted : List CacheRow
  snapshot : Snapshot

/-- Where a transaction is. `other` moves jobs; the rest is `terminal_counts`, with the start of the transaction, and with
the time of the freshness check that let it read or refresh. -/
inductive StatsTx
  | other
  | opened
  | begun (start : ℤ)
  | waiting (start : ℤ)
  | trying (start : ℤ)
  | locked (start : ℤ)
  | stale (start check : ℤ)
  | deleted (start check : ℤ) (rows : List CacheRow)
  | inserted (check : ℤ) (w : Refresh)
  | reading (holds : Bool) (own : Option Refresh) (check : Option ℤ)
  | selected (holds : Bool) (own : Option Refresh) (check : Option ℤ) (rows : List StateCount)
  | failed

/-- Whether it has the lock. -/
def StatsTx.holds : StatsTx → Bool
  | .locked _ | .stale _ _ | .deleted _ _ _ | .inserted _ _ => true
  | .reading h _ _ | .selected h _ _ _ => h
  | _ => false

/-- The cache as a transaction sees it, with what it has written itself. -/
def StatsDb.view (db : StatsDb) : Option Refresh → List CacheRow
  | none => db.cache
  | some w => db.cache.filter (fun r => r ∉ w.deleted) ++ w.inserted

/-- Rows with a key that is there already, or twice the same. -/
def StatsDb.Conflicts (db : StatsDb) (deleted rows : List CacheRow) : Prop :=
  (∃ r ∈ rows, ∃ r' ∈ db.cache, r' ∉ deleted ∧ r'.key = r.key) ∨ ¬ (rows.map (fun r => r.key)).Nodup

/-- The statements. -/
inductive StatsStmt (free : StatsLock → Prop) (db : StatsDb) : StatsTx → StatsTx → Prop
  | begin : StatsStmt free db .opened (.begun db.clock)
  -- the first check
  | fresh {start : ℤ} (h : db.fresh = some true) : StatsStmt free db (.begun start) (.reading false none (some db.clock))
  | missing {start : ℤ} (h : db.fresh = none) : StatsStmt free db (.begun start) (.waiting start)
  | old {start : ℤ} (h : db.fresh = some false) : StatsStmt free db (.begun start) (.trying start)
  -- the lock
  | lock {start : ℤ} (h : free .stats) : StatsStmt free db (.waiting start) (.locked start)
  | won {start : ℤ} (h : free .stats) : StatsStmt free db (.trying start) (.locked start)
  | lost {start : ℤ} (h : ¬ free .stats) : StatsStmt free db (.trying start) (.reading false none none)
  -- the second check
  | refreshed {start : ℤ} (h : db.fresh = some true) :
      StatsStmt free db (.locked start) (.reading true none (some db.clock))
  | unrefreshed {start : ℤ} (h : db.fresh ≠ some true) : StatsStmt free db (.locked start) (.stale start db.clock)
  -- the refresh
  | delete {start check : ℤ} : StatsStmt free db (.stale start check) (.deleted start check db.cache)
  | insert {start check : ℤ} {rows : List CacheRow} (h : ¬ db.Conflicts rows (cacheRows db.refreshes.length db.jobs)) :
      StatsStmt free db (.deleted start check rows)
        (.inserted check ⟨start, rows, cacheRows db.refreshes.length db.jobs, ⟨db.clock, db.jobs⟩⟩)
  | duplicate {start check : ℤ} {rows : List CacheRow} (h : db.Conflicts rows (cacheRows db.refreshes.length db.jobs)) :
      StatsStmt free db (.deleted start check rows) .failed
  | upsert {check : ℤ} {w : Refresh} : StatsStmt free db (.inserted check w) (.reading true (some w) (some check))
  -- the counts
  | select {holds : Bool} {own : Option Refresh} {check : Option ℤ} : StatsStmt free db (.reading holds own check)
      (.selected holds own check ((db.view own).map CacheRow.toStateCount))

/-- The commits. -/
inductive StatsCommit (db : StatsDb) : StatsTx → StatsDb → Prop
  | other {clock : ℤ} {jobs : List JobRow} (h : db.clock ≤ clock) :
      StatsCommit db .other { db with clock := clock, jobs := jobs }
  | read {holds : Bool} {check : Option ℤ} {rows : List StateCount} :
      StatsCommit db (.selected holds none check rows) db
  | refresh {holds : Bool} {w : Refresh} {check : Option ℤ} {rows : List StateCount} :
      StatsCommit db (.selected holds (some w) check rows)
        { db with cache := db.view (some w), computedAt := some w.start, refreshes := db.refreshes ++ [w.snapshot] }

/-- Callers of `get_stats` beside each other and beside the transactions that move jobs. -/
def statsEngine : Engine StatsDb StatsTx StatsLock where
  begins l := l = .other ∨ l = .opened
  held l _ := l.holds = true
  stmt := StatsStmt
  commits := StatsCommit

/-! ## `get_stats` -/

/-- The counts of the pending and the running jobs, which come from one statement before the transaction. -/
def liveCounts (jobs : List JobRow) : List StateCount :=
  [JobState.pending, .running].flatMap fun st =>
    ((jobs.filter (fun j => j.state = st)).map (·.queue)).dedup.map fun q =>
      { queue := q, state := st, count := jobs.countP (fun j => j.queue = q ∧ j.state = st) }

/-- By queue, then by the text of the state. -/
def statsLe (a b : StateCount) : Bool := a.queue < b.queue ∨ (a.queue = b.queue ∧ a.state.asStr ≤ b.state.asStr)

/-- What `get_stats` returns: the live counts of `jobs` and the rows of `terminal_counts`. -/
def getStats (jobs : List JobRow) (rows : List StateCount) : List StateCount := orderBy statsLe (liveCounts jobs ++ rows)

/-- Its terminal counts. -/
def terminalOf (out : List StateCount) : List StateCount := out.filter (fun c => c.state.terminal)

/-! ## The statement -/

/-- **The histogram** of the finished jobs: one row for each queue and final state with jobs, with their number. -/
structure TerminalHistogram (jobs : List JobRow) (rows : List StateCount) : Prop where
  once : (rows.map StateCount.key).Nodup
  mem : ∀ c, c ∈ rows ↔ c.state.terminal = true ∧ 0 < c.count ∧
    c.count = jobs.countP (fun j => j.queue = c.queue ∧ j.state = c.state)

theorem countTerminal_histogram (jobs : List JobRow) : TerminalHistogram jobs (countTerminal jobs) := by
  constructor
  · have hkeys : (countTerminal jobs).map StateCount.key =
        ((jobs.filter (fun j => j.state.terminal)).map (fun j => (j.queue, j.state))).dedup := by
      rw [countTerminal, List.map_map]
      exact List.map_id _
    rw [hkeys]
    exact List.nodup_dedup _
  · intro c
    have hpos : 0 < jobs.countP (fun j => j.queue = c.queue ∧ j.state = c.state) ↔
        ∃ j ∈ jobs, j.queue = c.queue ∧ j.state = c.state := by
      rw [List.countP_pos_iff]
      simp
    simp only [countTerminal, List.mem_map, List.mem_dedup, List.mem_filter]
    constructor
    · rintro ⟨k, ⟨j, ⟨hj, hterm⟩, rfl⟩, rfl⟩
      exact ⟨hterm, hpos.mpr ⟨j, hj, rfl, rfl⟩, rfl⟩
    · rintro ⟨hterm, hcount, heq⟩
      obtain ⟨j, hj, hq, hst⟩ := hpos.mp (heq ▸ hcount)
      refine ⟨(c.queue, c.state), ⟨j, ⟨hj, hst ▸ hterm⟩, ?_⟩, ?_⟩
      · rw [hq, hst]
      · ext1
        · rfl
        · rfl
        · exact heq.symm

/-- The live counts add nothing to the terminal ones. -/
theorem terminalOf_getStats (jobs : List JobRow) {rows : List StateCount} (h : ∀ c ∈ rows, c.state.terminal = true) :
    (terminalOf (getStats jobs rows)).Perm rows := by
  have hlive : terminalOf (liveCounts jobs) = [] := by
    rw [terminalOf, List.filter_eq_nil_iff]
    intro c hc
    obtain ⟨st, hst, hc⟩ := List.mem_flatMap.mp hc
    obtain ⟨q, _, rfl⟩ := List.mem_map.mp hc
    rcases List.mem_pair.mp hst with rfl | rfl <;> exact Bool.false_ne_true
  have hsplit : terminalOf (liveCounts jobs ++ rows) = rows := by
    have hnil : (liveCounts jobs).filter (fun c => c.state.terminal) = [] := hlive
    rw [terminalOf, List.filter_append, hnil, List.nil_append, List.filter_eq_self]
    exact h
  exact ((perm_orderBy statsLe _).filter _).trans (List.Perm.of_eq hsplit)

theorem TerminalHistogram.perm {jobs : List JobRow} {rows rows' : List StateCount} (h : TerminalHistogram jobs rows)
    (hp : rows'.Perm rows) : TerminalHistogram jobs rows' :=
  ⟨(hp.map _).nodup_iff.mpr h.once, fun c => hp.mem_iff.trans (h.mem c)⟩

/-! ## What holds between the statements -/

/-- The cache is that of a refresh whose snapshot is no older than `b`. -/
def StatsDb.Latest (db : StatsDb) (b : ℤ) : Prop :=
  ∃ snap ∈ db.refreshes, (∃ v, db.cache = cacheRows v snap.jobs) ∧ b ≤ snap.time

/-- The cache is empty until it is computed, and never older than its stamp. -/
structure StatsDb.Computed (db : StatsDb) : Prop where
  empty : db.computedAt = none → db.cache = []
  latest : ∀ c, db.computedAt = some c → db.Latest c
  past : ∀ snap ∈ db.refreshes, snap.time ≤ db.clock

/-- A refresh has deleted the whole cache and counted after every other. -/
structure Refresh.Ok (db : StatsDb) (w : Refresh) : Prop where
  deleted : w.deleted = db.cache
  inserted : ∃ v, w.inserted = cacheRows v w.snapshot.jobs
  start : w.start ≤ w.snapshot.time
  past : w.snapshot.time ≤ db.clock
  last : ∀ snap ∈ db.refreshes, snap.time ≤ w.snapshot.time

/-- Where each transaction should be. -/
def StatsTx.Ok (db : StatsDb) : StatsTx → Prop
  | .other | .opened => True
  | .begun start | .waiting start | .locked start => start ≤ db.clock
  | .trying start => start ≤ db.clock ∧ ∃ b, db.Latest b
  | .stale start check => start ≤ db.clock ∧ check ≤ db.clock
  | .deleted start check rows => start ≤ db.clock ∧ check ≤ db.clock ∧ rows = db.cache
  | .inserted check w => w.Ok db ∧ check ≤ w.snapshot.time
  | .reading _ none check => ∃ b, db.Latest b ∧ ∀ t ∈ check, t - terminalStatsTtl ≤ b
  | .reading holds (some w) check => holds = true ∧ w.Ok db ∧ ∀ t ∈ check, t ≤ w.snapshot.time
  | .selected holds own check rows => (∀ w ∈ own, holds = true ∧ w.Ok db) ∧
      ∃ snap, (snap ∈ db.refreshes ∨ ∃ w ∈ own, snap = w.snapshot) ∧ rows = countTerminal snap.jobs ∧
        ∀ t ∈ check, t - terminalStatsTtl ≤ snap.time
  | .failed => False

/-- Time goes on, refreshes are added, and outside the lock the cache is as it was. -/
structure CacheSame (own : StatsLock → Prop) (db db' : StatsDb) : Prop where
  clock : db.clock ≤ db'.clock
  refreshes : db.refreshes ⊆ db'.refreshes
  latest : ∀ b, db.Latest b → db'.Latest b
  same : ¬ own .stats → db'.cache = db.cache ∧ db'.computedAt = db.computedAt ∧ db'.refreshes = db.refreshes

section Cache

variable {db db' : StatsDb} {w : Refresh} {b c : ℤ}

theorem cacheRows_counts (v : Nat) (jobs : List JobRow) :
    (cacheRows v jobs).map CacheRow.toStateCount = countTerminal jobs := by
  rw [cacheRows, List.map_map]
  exact List.map_id _

theorem StatsDb.Latest.mono (h : db.Latest b) (hle : c ≤ b) : db.Latest c := by
  obtain ⟨snap, hsnap, hcache, hb⟩ := h
  exact ⟨snap, hsnap, hcache, hle.trans hb⟩

/-- A snapshot that is found fresh is younger than the limit. -/
theorem StatsDb.Computed.of_fresh (h : db.Computed) (hf : db.fresh = some true) :
    db.Latest (db.clock - terminalStatsTtl) := by
  obtain ⟨c, hc, hlt⟩ := Option.map_eq_some_iff.mp hf
  exact (h.latest c hc).mono (of_decide_eq_true hlt).le

/-- A refresh sees its own rows and no others. -/
theorem Refresh.Ok.view (h : w.Ok db) : db.view (some w) = w.inserted := by
  have hnone : db.cache.filter (fun r => r ∉ w.deleted) = [] := by
    rw [List.filter_eq_nil_iff, h.deleted]
    simp
  rw [StatsDb.view, hnone, List.nil_append]

theorem Refresh.Ok.stable (h : w.Ok db) (hclock : db.clock ≤ db'.clock) (hcache : db'.cache = db.cache)
    (hrefreshes : db'.refreshes = db.refreshes) : w.Ok db' where
  deleted := by rw [hcache, h.deleted]
  inserted := h.inserted
  start := h.start
  past := h.past.trans hclock
  last := by rw [hrefreshes]; exact h.last

/-- **No refresh fails on a key**: the whole cache is deleted, and `GROUP BY` gives each key once. -/
theorem not_conflicts (db : StatsDb) (v : Nat) (jobs : List JobRow) : ¬ db.Conflicts db.cache (cacheRows v jobs) := by
  rintro (⟨_, _, r', hr', hno, _⟩ | hdup)
  · exact hno hr'
  · refine hdup ?_
    have hkeys : (cacheRows v jobs).map (fun r => r.key) = (countTerminal jobs).map StateCount.key := by
      rw [cacheRows, List.map_map]
      rfl
    rw [hkeys]
    exact (countTerminal_histogram jobs).once

/-- The cache after a refresh is that of its snapshot. -/
theorem Refresh.Ok.latest (h : w.Ok db) (hle : b ≤ w.snapshot.time) : StatsDb.Latest
    { db with cache := db.view (some w), computedAt := some w.start, refreshes := db.refreshes ++ [w.snapshot] } b := by
  obtain ⟨v, hv⟩ := h.inserted
  exact ⟨w.snapshot, List.mem_append_right _ (List.mem_singleton_self _), ⟨v, h.view.trans hv⟩, hle⟩

end Cache

/-! ## Every statement and every commit -/

section Discipline

variable {db db' : StatsDb} {l l' : StatsTx} {free own : StatsLock → Prop}

theorem StatsStmt.held {r : StatsLock} (hs : StatsStmt free db l l') (h : l'.holds = true) : l.holds = true ∨ free r := by
  cases r
  cases hs with
  | lock hfree | won hfree => exact .inr hfree
  | refreshed | unrefreshed | delete | insert | upsert => exact .inl rfl
  | select => exact .inl h
  | _ => cases h

/-- Every statement leads a transaction to where it should be. -/
theorem StatsStmt.ok (hc : db.Computed) (hl : l.Ok db) (hs : StatsStmt free db l l') : l'.Ok db := by
  cases hs with
  | begin => exact le_rfl
  | fresh hf => exact ⟨_, hc.of_fresh hf, fun t ht => by cases ht; exact le_rfl⟩
  | missing => exact hl
  | old hf =>
    obtain ⟨c, hcomp, _⟩ := Option.map_eq_some_iff.mp hf
    exact ⟨hl, c, hc.latest c hcomp⟩
  | lock => exact hl
  | won => exact hl.1
  | lost =>
    obtain ⟨_, b, hb⟩ := hl
    exact ⟨b, hb, fun t ht => by cases ht⟩
  | refreshed hf => exact ⟨_, hc.of_fresh hf, fun t ht => by cases ht; exact le_rfl⟩
  | unrefreshed => exact ⟨hl, le_rfl⟩
  | delete => exact ⟨hl.1, hl.2, rfl⟩
  | insert =>
    obtain ⟨hstart, hcheck, rfl⟩ := hl
    exact ⟨⟨rfl, ⟨_, rfl⟩, hstart, le_rfl, hc.past⟩, hcheck⟩
  | duplicate hdup =>
    obtain ⟨_, _, rfl⟩ := hl
    exact absurd hdup (not_conflicts _ _ _)
  | upsert => exact ⟨rfl, hl.1, fun t ht => by cases ht; exact hl.2⟩
  | @select holds own check =>
    cases own with
    | none =>
      obtain ⟨b, ⟨snap, hsnap, ⟨v, hv⟩, hb⟩, hcheck⟩ := hl
      refine ⟨nofun, snap, .inl hsnap, ?_, fun t ht => (hcheck t ht).trans hb⟩
      rw [StatsDb.view, hv, cacheRows_counts]
    | some w =>
      obtain ⟨hholds, hw, hcheck⟩ := hl
      obtain ⟨v, hv⟩ := hw.inserted
      refine ⟨fun w' hw' => Option.some.inj hw' ▸ ⟨hholds, hw⟩, w.snapshot, .inr ⟨w, rfl, rfl⟩, ?_, fun t ht => ?_⟩
      · rw [hw.view, hv, cacheRows_counts]
      · have := hcheck t ht
        unfold terminalStatsTtl
        omega

/-- A commit leaves a cache that is computed. -/
theorem StatsCommit.computed (hc : db.Computed) (hl : l.Ok db) (hcom : StatsCommit db l db') : db'.Computed := by
  cases hcom with
  | other hclock => exact ⟨hc.empty, hc.latest, fun snap hsnap => (hc.past snap hsnap).trans hclock⟩
  | read => exact hc
  | @refresh _ w =>
    obtain ⟨hown, -⟩ := hl
    obtain ⟨-, hw⟩ := hown w rfl
    refine ⟨fun hnone => (by cases hnone), fun c hcomp => ?_, fun snap hsnap => ?_⟩
    · cases hcomp
      exact hw.latest hw.start
    · rcases List.mem_append.mp hsnap with hsnap | hsnap
      · exact hc.past snap hsnap
      · rw [List.mem_singleton.mp hsnap]
        exact hw.past

/-- And changes the cache only under the lock. -/
theorem StatsCommit.same (hl : l.Ok db) (hcom : StatsCommit db l db') : CacheSame (fun _ => l.holds = true) db db' := by
  cases hcom with
  | other hclock => exact ⟨hclock, fun _ hs => hs, fun _ hb => hb, fun _ => ⟨rfl, rfl, rfl⟩⟩
  | read => exact ⟨le_rfl, fun _ hs => hs, fun _ hb => hb, fun _ => ⟨rfl, rfl, rfl⟩⟩
  | @refresh _ w =>
    obtain ⟨hown, -⟩ := hl
    obtain ⟨hholds, hw⟩ := hown w rfl
    refine ⟨le_rfl, fun _ hs => List.mem_append_left _ hs, ?_, fun hno => absurd hholds hno⟩
    rintro b ⟨snap, hsnap, _, hb⟩
    exact hw.latest (hb.trans (hw.last snap hsnap))

/-- What others do under the lock, or besides it, keeps a transaction where it should be. -/
theorem StatsTx.Ok.stable (hs : CacheSame own db db') (hno : ∀ r, l.holds = true → ¬ own r) (h : l.Ok db) : l.Ok db' := by
  have hwrites : ∀ w : Refresh, l.holds = true → w.Ok db → w.Ok db' := by
    intro w hholds hw
    obtain ⟨hcache, -, hrefreshes⟩ := hs.same (hno .stats hholds)
    exact hw.stable hs.clock hcache hrefreshes
  have hclock := hs.clock
  cases l with
  | other | opened => exact trivial
  | begun start | waiting start | locked start =>
    have h : start ≤ db.clock := h
    exact h.trans hclock
  | trying start =>
    obtain ⟨hstart, b, hb⟩ := h
    exact ⟨hstart.trans hclock, b, hs.latest b hb⟩
  | stale start check => exact ⟨h.1.trans hclock, h.2.trans hclock⟩
  | deleted start check rows =>
    obtain ⟨hstart, hcheck, hrows⟩ := h
    exact ⟨hstart.trans hclock, hcheck.trans hclock, hrows.trans (hs.same (hno .stats rfl)).1.symm⟩
  | inserted check w => exact ⟨hwrites w rfl h.1, h.2⟩
  | reading holds o check =>
    cases o with
    | none =>
      obtain ⟨b, hb, hcheck⟩ := h
      exact ⟨b, hs.latest b hb, hcheck⟩
    | some w => exact ⟨h.1, hwrites w h.1 h.2.1, h.2.2⟩
  | selected holds o check rows =>
    obtain ⟨hown, snap, hsnap, hrows, hcheck⟩ := h
    exact ⟨fun w hw => ⟨(hown w hw).1, hwrites w (hown w hw).1 (hown w hw).2⟩, snap, hsnap.imp_left fun hin => hs.refreshes hin,
      hrows, hcheck⟩
  | failed => exact h

theorem statsEngine_disciplined : statsEngine.Disciplined StatsDb.Computed StatsTx.Ok CacheSame where
  begins_held := by
    rintro l r (rfl | rfl) h <;> cases h
  begins_ok := by
    rintro db l _ (rfl | rfl) <;> trivial
  stmt_held := fun hs h => StatsStmt.held hs h
  stmt_ok := fun hc hl hs => StatsStmt.ok hc hl hs
  commits_inv := fun hc hl hcom => StatsCommit.computed hc hl hcom
  commits_same := fun _ hl hcom => StatsCommit.same hl hcom
  stable := fun hs hno h => StatsTx.Ok.stable hs hno h

end Discipline

/-! ## Every interleaving -/

/-- What a transaction has refreshed. -/
def StatsTx.refresh : StatsTx → Option Refresh
  | .inserted _ w => some w
  | .reading _ own _ | .selected _ own _ _ => own
  | _ => none

/-- A state of the run in which an `INSERT` was next, with the clock and the jobs of the snapshot. -/
def TakenIn {τ : Type} [DecidableEq τ] (z₀ z : Sessions StatsDb StatsTx τ) (snap : Snapshot) : Prop :=
  ∃ z', Reach statsEngine.Step z₀ z' ∧ Reach statsEngine.Step z' z ∧
    (∃ t start check rows, z'.opened t = some (.deleted start check rows)) ∧
    z'.store.clock = snap.time ∧ z'.store.jobs = snap.jobs

section Runs

variable {τ : Type} [DecidableEq τ] {z₀ z z' : Sessions StatsDb StatsTx τ} {t : τ} {snap : Snapshot}

theorem TakenIn.step (h : TakenIn z₀ z snap) (hs : statsEngine.Step z t z') : TakenIn z₀ z' snap := by
  obtain ⟨y, h₀, hy, rest⟩ := h
  exact ⟨y, h₀, hy.step hs, rest⟩

/-- A refresh is that of the statement before, or its `INSERT` is this one. -/
theorem StatsStmt.refresh {free : StatsLock → Prop} {db : StatsDb} {l l' : StatsTx} {w : Refresh}
    (hs : StatsStmt free db l l') (hw : l'.refresh = some w) : l.refresh = some w ∨
      (∃ start check rows, l = .deleted start check rows) ∧ w.snapshot = ⟨db.clock, db.jobs⟩ := by
  cases hs with
  | insert =>
    cases hw
    exact .inr ⟨⟨_, _, _, rfl⟩, rfl⟩
  | upsert | select => exact .inl hw
  | _ => cases hw

/-- Every snapshot is that of an `INSERT` in the run. -/
theorem reached_taken (hidle : ∀ t, z₀.opened t = none) (hnew : z₀.store.refreshes = [])
    (h : Reach statsEngine.Step z₀ z) : (∀ snap ∈ z.store.refreshes, TakenIn z₀ z snap) ∧
      ∀ t l w, z.opened t = some l → l.refresh = some w → TakenIn z₀ z w.snapshot := by
  obtain ⟨as, hrun⟩ := h
  induction hrun with
  | nil =>
    refine ⟨fun snap hsnap => ?_, fun t l w hl => ?_⟩
    · rw [hnew] at hsnap
      cases hsnap
    · rw [hidle] at hl
      cases hl
  | @snoc as z z' t hrun hs ih =>
    obtain ⟨hstore, hopen⟩ := ih
    have hreach : Reach statsEngine.Step z₀ z := ⟨as, hrun⟩
    cases hs with
    | @begin l idle hb =>
      refine ⟨fun snap hsnap => (hstore snap hsnap).step (.begin idle hb), fun t' l' w hl' hw => ?_⟩
      rcases opened_of_set hl' with rfl | hl'
      · rcases hb with rfl | rfl <;> cases hw
      · exact (hopen t' l' w hl' hw).step (.begin idle hb)
    | @stmt l l₁ now hst =>
      refine ⟨fun snap hsnap => (hstore snap hsnap).step (.stmt now hst), fun t' l' w hl' hw => ?_⟩
      rcases opened_of_set hl' with rfl | hl'
      · rcases StatsStmt.refresh hst hw with hw | ⟨⟨start, check, rows, rfl⟩, hsnap⟩
        · exact (hopen t l w now hw).step (.stmt now hst)
        · refine ⟨z, hreach, (Reach.refl z).step (.stmt now hst), ⟨t, start, check, rows, now⟩, ?_, ?_⟩ <;> rw [hsnap]
      · exact (hopen t' l' w hl' hw).step (.stmt now hst)
    | @commit l db now hcom =>
      refine ⟨fun snap hsnap => ?_, fun t' l' w hl' hw => ?_⟩
      · have hold : snap ∈ z.store.refreshes ∨ ∃ w, l.refresh = some w ∧ snap = w.snapshot := by
          cases hcom with
          | other | read => exact .inl hsnap
          | @refresh _ w =>
            rcases List.mem_append.mp hsnap with hsnap | hsnap
            · exact .inl hsnap
            · exact .inr ⟨w, rfl, List.mem_singleton.mp hsnap⟩
        rcases hold with hold | ⟨w, hw, rfl⟩
        · exact (hstore snap hold).step (.commit now hcom)
        · exact (hopen t l w now hw).step (.commit now hcom)
      · exact (hopen t' l' w (opened_of_closed hl').2 hw).step (.commit now hcom)
    | rollback =>
      refine ⟨fun snap hsnap => (hstore snap hsnap).step .rollback, fun t' l' w hl' hw => ?_⟩
      exact (hopen t' l' w (opened_of_closed hl').2 hw).step .rollback

/-- **The terminal counts of a caller are never torn**: in every interleaving no refresh fails, and the counts are the
histogram at the `INSERT` of a refresh that is committed or the caller's own, not older than the limit if a check let the
caller read or refresh. -/
theorem terminalCounts_untorn (z₀ z : Sessions StatsDb StatsTx τ) (hidle : ∀ t, z₀.opened t = none)
    (hnew : z₀.store.cache = [] ∧ z₀.store.computedAt = none ∧ z₀.store.refreshes = [])
    (h : Reach statsEngine.Step z₀ z) :
    (∀ t, z.opened t ≠ some .failed) ∧
      ∀ t holds own check rows, z.opened t = some (.selected holds own check rows) →
        ∃ snap, (snap ∈ z.store.refreshes ∨ ∃ w ∈ own, snap = w.snapshot) ∧ TakenIn z₀ z snap ∧
          (∀ live, TerminalHistogram snap.jobs (terminalOf (getStats live rows))) ∧
          ∀ c ∈ check, c - terminalStatsTtl ≤ snap.time := by
  obtain ⟨hcache, hcomp, hrefreshes⟩ := hnew
  have hinit : z₀.store.Computed := by
    refine ⟨fun _ => hcache, fun c hc => ?_, fun snap hsnap => ?_⟩
    · rw [hcomp] at hc
      cases hc
    · rw [hrefreshes] at hsnap
      cases hsnap
  have hkept := statsEngine_disciplined.kept hidle hinit h
  obtain ⟨htaken, htaken'⟩ := reached_taken hidle hrefreshes h
  refine ⟨fun t hf => hkept.ok hf, fun t holds own check rows hl => ?_⟩
  obtain ⟨-, snap, hsnap, rfl, hcheck⟩ := hkept.ok hl
  have hin : TakenIn z₀ z snap := by
    rcases hsnap with hsnap | ⟨w, hw, rfl⟩
    · exact htaken snap hsnap
    · exact htaken' t _ w hl hw
  have hrows := countTerminal_histogram snap.jobs
  refine ⟨snap, hsnap, hin, fun live => ?_, hcheck⟩
  exact hrows.perm (terminalOf_getStats live fun c hc => ((hrows.mem c).mp hc).1)

end Runs

/-! ## The first caller -/

/-- One finished job, and no statistics yet. -/
def firstDb : StatsDb where
  clock := 5000
  jobs := [{ newJob { kind := "mail", payload := .null } 1 0 with state := .completed }]

/-- A single transaction on that database. -/
def alone (l : Option StatsTx) : Sessions StatsDb StatsTx Unit := ⟨firstDb, fun _ => l⟩

theorem alone_set (l l' : Option StatsTx) :
    { alone l with opened := Function.update (alone l).opened () l' } = alone l' := by
  have hset : Function.update (alone l).opened () l' = fun _ => l' := by
    funext t
    exact Function.update_self () l' (alone l).opened
  rw [hset]
  rfl

/-- It finds every lock free. -/
theorem alone_stmt {l l' : StatsTx} (h : Reach statsEngine.Step (alone none) (alone (some l)))
    (hs : StatsStmt (fun _ => True) firstDb l l') : Reach statsEngine.Step (alone none) (alone (some l')) := by
  have hfree : statsEngine.Free (alone (some l)) () = fun _ => True := by
    funext r
    exact propext ⟨fun _ => trivial, fun _ t' _ hne => absurd (Subsingleton.elim t' ()) hne⟩
  rw [← alone_set (some l) (some l')]
  refine h.step (.stmt rfl ?_)
  rw [hfree]
  exact hs

/-- The refresh of the first caller, with its own check. -/
def firstRefresh : Refresh := ⟨5000, [], cacheRows 0 firstDb.jobs, ⟨5000, firstDb.jobs⟩⟩

theorem alone_selected : Reach statsEngine.Step (alone none)
    (alone (some (.selected true (some firstRefresh) (some 5000) (countTerminal firstDb.jobs)))) := by
  have h0 : Reach statsEngine.Step (alone none) (alone (some .opened)) := by
    rw [← alone_set none (some .opened)]
    exact (Reach.refl _).step (.begin rfl (Or.inr rfl))
  have h1 := alone_stmt h0 .begin
  have h2 := alone_stmt h1 (.missing rfl)
  have h3 := alone_stmt h2 (.lock trivial)
  have h4 := alone_stmt h3 (.unrefreshed nofun)
  have h5 := alone_stmt h4 .delete
  have h6 := alone_stmt h5 (.insert (not_conflicts firstDb 0 firstDb.jobs))
  have h7 := alone_stmt h6 .upsert
  exact alone_stmt h7 .select

/-- It returns the histogram at its own refresh. -/
theorem alone_untorn : ∃ snap : Snapshot, (∀ live, TerminalHistogram snap.jobs (terminalOf (getStats live (countTerminal firstDb.jobs)))) ∧
    5000 - terminalStatsTtl ≤ snap.time := by
  obtain ⟨-, h⟩ := terminalCounts_untorn (alone none) _ (fun _ => rfl) ⟨rfl, rfl, rfl⟩ alone_selected
  obtain ⟨snap, -, -, hrows, hcheck⟩ := h () true _ _ _ rfl
  exact ⟨snap, hrows, hcheck 5000 rfl⟩

end Eddyq.Pg
