import Eddyq.Pg.CapSafety

/-!
# Counter repair between the statements of others

`reconcile_counters` is a transaction of two statements, one for the groups and one for the queues. Each takes its counts
from its own snapshot (`RepairTx.seen`), and then its rows one by one: a row that another transaction has written meanwhile
is waited for, and `running_count > n` and `LEAST(running_count, n)` are evaluated again on its new version, with the counts
of the snapshot. A run is one of claims, verdicts, recoveries and repairs, statement by statement (`repairEngine`).

`repairs_cover`: counters that are not below their running jobs stay so, as long as a row that is lowered has no more running
jobs than in the snapshot. A claim that commits between the two is erased (`repair_erases`).
-/

namespace Eddyq.Pg

open Eddyq.Lib

/-! ## The repair -/

/-- How far the repair is. -/
inductive RepairStage
  | begun
  | groups
  | queues
  deriving DecidableEq

/-- A repair under way. -/
structure RepairTx where
  stage : RepairStage := .begun
  /-- The snapshot of the statement that runs. -/
  seen : Db := Db.empty
  /-- The rows it has found and not been to. -/
  todo : List Row := []
  /-- The counts that rows have been lowered to. -/
  lowered : Row → Option ℤ := fun _ => none
  held : List Row := []

/-- The group rows that a statement finds. -/
def Db.driftedGroups (db : Db) : List Row := (db.groups.filter db.groupDrifted).map (fun g => .group g.key)

/-- The queue rows that a statement finds. -/
def Db.driftedQueues (db : Db) : List Row := (db.queues.filter db.queueDrifted).map (fun q => .queue q.name)

/-- The statements of a repair. A careful one lowers no row that has more running jobs than in the snapshot. -/
inductive RepairStmt (careful : Prop) (free : Row → Prop) (db : Db) (x : RepairTx) : RepairTx → Prop
  | countGroups (at' : x.stage = .begun) :
      RepairStmt careful free db x { x with stage := .groups, seen := db, todo := db.driftedGroups }
  | countQueues (at' : x.stage = .groups) (done : x.todo = []) :
      RepairStmt careful free db x { x with stage := .queues, seen := db, todo := db.driftedQueues }
  | lower {r : Row} {rest rest' : List Row} {count cap : ℤ} (at' : x.todo = rest ++ r :: rest') (hfree : free r)
      (slots : db.Slots count cap r) (above : (x.seen.runsAt r : ℤ) < count)
      (ok : careful → db.runsAt r ≤ x.seen.runsAt r) :
      RepairStmt careful free db x { x with
        todo := rest ++ rest', held := x.held ++ [r], lowered := Function.update x.lowered r (some (x.seen.runsAt r)) }
  /-- The new version of the row does not match any more. -/
  | pass {r : Row} {rest rest' : List Row} {count cap : ℤ} (at' : x.todo = rest ++ r :: rest') (hfree : free r)
      (slots : db.Slots count cap r) (below : count ≤ x.seen.runsAt r) :
      RepairStmt careful free db x { x with todo := rest ++ rest', held := x.held ++ [r] }

/-- `LEAST(running_count, n)` for the rows that have been lowered. -/
def RepairTx.least (x : RepairTx) (r : Row) (count : ℤ) : ℤ :=
  match x.lowered r with
  | some n => min count n
  | none => count

/-- The tables that a repair leaves. -/
def RepairTx.write (db : Db) (x : RepairTx) : Db :=
  { db with
    groups := db.groups.map (fun g => { g with runningCount := x.least (.group g.key) g.runningCount })
    queues := db.queues.map (fun q => { q with runningCount := x.least (.queue q.name) q.runningCount }) }

/-- The commit of a repair. -/
inductive RepairCommit (db : Db) (x : RepairTx) : Db → Prop
  | mk (at' : x.stage = .queues) (done : x.todo = []) : RepairCommit db x (x.write db)

/-- Claims, verdicts, recoveries and repairs. -/
def repairEngine (careful : Prop) : Engine Db (Tx ⊕ RepairTx) Row where
  begins x := Sum.elim Tx.Begins (fun x => x = {}) x
  held x r := Sum.elim (fun x => r ∈ x.held) (fun x => r ∈ x.held) x
  stmt free db x x' := Sum.LiftRel (Tx.Stmt free db) (RepairStmt careful free db) x x'
  commits db x db' := Sum.elim (fun x => Tx.Commits db x db') (fun x => RepairCommit db x db') x

/-! ## Counters that are not below their running jobs -/

/-- `running_count` of a group; a group without a row has no slot taken. -/
def Db.groupCount (db : Db) (k : String) : ℤ := ((db.groups.find? (·.key = k)).map (·.runningCount)).getD 0

/-- No counter is below its running jobs. -/
structure Covered (db : Db) : Prop where
  groups : ∀ k, (db.runsAt (.group k) : ℤ) ≤ db.groupCount k
  queues : ∀ q ∈ db.queues, (db.runsAt (.queue q.name) : ℤ) ≤ q.runningCount

section Covered

variable {db db' : Db}

theorem Keyed.groupCount_row (hk : Keyed db) {g : GroupRow} (hg : g ∈ db.groups) : db.groupCount g.key = g.runningCount := by
  unfold Db.groupCount
  cases hfind : db.groups.find? (·.key = g.key) with
  | none => exact absurd (decide_eq_true rfl) (List.find?_eq_none.mp hfind g hg)
  | some g' =>
    have hkey : g'.key = g.key := by simpa using List.find?_some hfind
    rw [List.inj_on_of_nodup_map hk.groups (List.mem_of_find?_eq_some hfind) hg hkey]
    rfl

theorem groupCount_none {k : String} (h : ∀ g ∈ db.groups, g.key ≠ k) : db.groupCount k = 0 := by
  have hfind : db.groups.find? (·.key = k) = none := List.find?_eq_none.mpr (fun g hg => by simpa using h g hg)
  rw [Db.groupCount, hfind]
  rfl

/-- Row by row. -/
theorem Covered.of_rows (hk : Keyed db) (rows : ∀ g ∈ db.groups, (db.runsAt (.group g.key) : ℤ) ≤ g.runningCount)
    (none : ∀ k, (∀ g ∈ db.groups, g.key ≠ k) → db.runsAt (.group k) = 0)
    (queues : ∀ q ∈ db.queues, (db.runsAt (.queue q.name) : ℤ) ≤ q.runningCount) : Covered db := by
  refine ⟨fun k => ?_, queues⟩
  by_cases hrow : ∃ g ∈ db.groups, g.key = k
  · obtain ⟨g, hg, rfl⟩ := hrow
    rw [hk.groupCount_row hg]
    exact rows g hg
  · have hno : ∀ g ∈ db.groups, g.key ≠ k := fun g hg he => hrow ⟨g, hg, he⟩
    rw [groupCount_none hno, none k hno]
    exact le_refl _

theorem Covered.row (h : Covered db) (hk : Keyed db) {g : GroupRow} (hg : g ∈ db.groups) :
    (db.runsAt (.group g.key) : ℤ) ≤ g.runningCount := by
  rw [← hk.groupCount_row hg]
  exact h.groups g.key

theorem Covered.idle (h : Covered db) {k : String} (hno : ∀ g ∈ db.groups, g.key ≠ k) : db.runsAt (.group k) = 0 := by
  have hle := h.groups k
  rw [groupCount_none hno] at hle
  omega

/-- **A claim** raises the counters by what it starts. -/
theorem Covered.commitClaim (h : Covered db) (hk : Keyed db) (a : ClaimArgs) (slots : List (String × GroupState))
    {ids : List JobId} (hids : ∀ j ∈ db.jobs, j.id ∈ ids → j.state = .pending) (now clock : ℤ) :
    Covered (commitClaim db a slots ids now clock) := by
  have hruns := runsAt_commitClaim a slots now clock hids
  have hk' := hk.commitClaim a slots ids now clock
  obtain ⟨hrows, hkeys, _⟩ := bumpGroups_spec slots (claimedRows db ids a.worker now) clock
    ((claimedRows db ids a.worker now).filterMap (·.groupKey)).dedup
    { db with jobs := updateWhere (fun j => j.id ∈ ids) (·.start a.worker now) db.jobs } db.groupCount (List.nodup_dedup _)
    (fun g hg => (hk.groupCount_row hg).symm) (fun k _ hno => groupCount_none hno)
  refine .of_rows hk' (fun g hg => ?_) (fun k hno => ?_) (fun q' hq' => ?_)
  · rw [commitClaim_tables, bumpQueues_eq _ _ _ (List.nodup_dedup _)] at hg
    have hcount := hrows g hg
    have hold := h.groups g.key
    rw [hruns, hcount, groupDelta_claimed]
    split
    · push_cast
      omega
    · next hout =>
      rw [startedOf_group_eq_zero hout]
      push_cast
      omega
  · rw [commitClaim_tables, bumpQueues_eq _ _ _ (List.nodup_dedup _)] at hno
    -- there was no row either, and the claim starts no job of the group
    have hout : k ∉ ((claimedRows db ids a.worker now).filterMap (·.groupKey)).dedup := by
      intro hin
      obtain ⟨g, hg, hgk⟩ := hkeys k (Or.inr hin)
      exact hno g hg hgk
    have hidle := h.idle (k := k) (fun g hg hgk => by
      obtain ⟨g', hg', hgk'⟩ := hkeys k (Or.inl ⟨g, hg, hgk⟩)
      exact hno g' hg' hgk')
    rw [hruns, startedOf_group_eq_zero hout, hidle]
  · have hname : q'.name ∈ (Pg.commitClaim db a slots ids now clock).queues.map (·.name) := List.mem_map_of_mem hq'
    rw [commitClaim_tables, bumpQueues_eq _ _ _ (List.nodup_dedup _), bumpGroups_queues, List.map_map] at hname
    obtain ⟨q, hq, hqn⟩ := List.mem_map.mp hname
    have hqn : q.name = q'.name := by
      rw [← hqn]
      simp only [Function.comp_apply]
      split <;> rfl
    have hq : q ∈ db.queues := hq
    have heq := List.inj_on_of_nodup_map hk'.queues (commitClaim_queue a slots ids now clock hq) hq' hqn
    have hold := h.queues q hq
    rw [← heq, hruns]
    push_cast
    omega

/-- **Released slots** lower the counters by at most what has ended. -/
theorem Covered.released (h : Covered db) (hk : Keyed db) {p : JobRow → Bool} {f : JobRow → JobRow}
    (hr : Released p f db db') (hp : ∀ j, p j → j.running) (hf : ∀ j, (f j).running = false) (hid : ∀ j, (f j).id = j.id) :
    Covered db' := by
  have hk' := hr.keyed hid hk
  have hruns := hr.runsAt hp hf
  refine .of_rows hk' (fun g' hg' => ?_) (fun k hno => ?_) (fun q' hq' => ?_)
  · have hkey : g'.key ∈ db.groups.map (·.key) := hr.groups.1 ▸ List.mem_map_of_mem hg'
    obtain ⟨g, hg, hgk⟩ := List.mem_map.mp hkey
    obtain ⟨g'', hg'', hkey'', _, hle, _⟩ := hr.groups.2 g hg
    have heq : g'' = g' := List.inj_on_of_nodup_map hk'.groups hg'' hg' (hkey''.trans hgk)
    have hkey'' : g''.key = g.key := hkey''
    have hle : g.runningCount - movedOf db p (.group g.key) ≤ g''.runningCount := hle
    have hold := h.row hk hg
    have hmove := hruns (.group g.key)
    rw [← heq, hkey'']
    omega
  · have hidle := h.idle (k := k) (fun g hg hgk => by
      obtain ⟨g', hg', hkey', _⟩ := hr.groups.2 g hg
      exact hno g' hg' (hkey'.trans hgk))
    have hmove := hruns (.group k)
    omega
  · have hname : q'.name ∈ db.queues.map (·.name) := hr.queues.1 ▸ List.mem_map_of_mem hq'
    obtain ⟨q, hq, hqn⟩ := List.mem_map.mp hname
    obtain ⟨q'', hq'', hname'', _, hle, _⟩ := hr.queues.2 q hq
    have heq : q'' = q' := List.inj_on_of_nodup_map hk'.queues hq'' hq' (hname''.trans hqn)
    have hname'' : q''.name = q.name := hname''
    have hle : q.runningCount - movedOf db p (.queue q.name) ≤ q''.runningCount := hle
    have hold := h.queues q hq
    have hmove := hruns (.queue q.name)
    rw [← heq, hname'']
    omega

/-- A new group row begins with no slot taken. -/
theorem Covered.grow (h : Covered db) (hk : Keyed db) (hg : Grow db db') : Covered db' := by
  have hk' := hg.keyed hk
  have hruns := hg.runsAt
  cases hg with
  | insert hi =>
    cases hi with
    | row =>
      refine .of_rows hk' (fun g hg => ?_) (fun k hno => ?_) (fun q hq => ?_)
      · rw [hruns]
        exact h.row hk hg
      · rw [hruns]
        exact h.idle hno
      · rw [hruns]
        exact h.queues q hq
    | skip => exact ⟨h.groups, h.queues⟩
  | materialize hm =>
    cases hm with
    | same => exact h
    | row g hkey count new =>
      refine .of_rows hk' (fun g' hg' => ?_) (fun k hno => ?_) (fun q hq => ?_)
      · rw [hruns]
        rcases List.mem_append.mp hg' with hg' | hg'
        · exact h.row hk hg'
        · rw [List.mem_singleton.mp hg', count, hkey, h.idle new]
          exact le_refl _
      · rw [hruns]
        exact h.idle (fun g' hg' => hno g' (List.mem_append_left _ hg'))
      · rw [hruns]
        exact h.queues q hq
  | batches => exact ⟨h.groups, h.queues⟩

theorem Covered.grows (h : Covered db) (hk : Keyed db) (hg : Grows db db') : Covered db' := by
  have hboth : Covered db' ∧ Keyed db' := by
    induction hg with
    | refl => exact ⟨h, hk⟩
    | tail _ hs ih => exact ⟨ih.1.grow ih.2 hs, hs.keyed ih.2⟩
  exact hboth.1

end Covered

/-! ## The discipline -/

/-- What others may do: leave the rows outside `own` as they were, with no more running jobs. -/
structure Leaves (own : Row → Prop) (db db' : Db) : Prop where
  spares : Spares own db db'
  runs : ∀ r count cap, ¬ own r → db.Slots count cap r → db'.runsAt r ≤ db.runsAt r

/-- A repair has lowered rows that it holds, to no less than their running jobs. -/
def RepairTx.Sound (db : Db) (x : RepairTx) : Prop :=
  ∀ r n, x.lowered r = some n → r ∈ x.held ∧ (db.runsAt r : ℤ) ≤ n ∧ ∃ count cap, db.Slots count cap r

/-- What is true of an open transaction. -/
def Sound : Db → Tx ⊕ RepairTx → Prop
  | db, .inl x => x.Ok (fun _ => False) db
  | db, .inr x => x.Sound db

section Discipline

variable {db db' : Db} {free own : Row → Prop} {x : RepairTx}

/-- The discipline of claims, verdicts and recoveries, without watched rows. -/
theorem tx_disciplined : engine.Disciplined (Watched fun _ => False) (Tx.Ok fun _ => False) Spares :=
  engine_disciplined (fun _ hv => hv.elim)

theorem Keyed.unwatched (hk : Keyed db) : Watched (fun _ => False) db := ⟨hk, fun _ hv => hv.elim⟩

theorem Covered.commits {x : Tx} (h : Covered db) (hk : Keyed db) (hx : x.Ok (fun _ => False) db) (hc : x.Commits db db') :
    Covered db' := by
  cases hc with
  | claim hc =>
    cases hc with
    | mk at' counters => exact h.commitClaim hk _ _ (hx.1.pending hk at') _ _
  | settle hc =>
    obtain ⟨p, f, db₁, hs⟩ := hc.settled hk hx
    have h₁ := h.released hk hs.released hs.running hs.ended hs.ids
    exact h₁.grows (hs.released.keyed hs.ids hk) hs.grows

/-- A claim starts jobs only of the counters it holds. -/
theorem ClaimCommit.runs {x : ClaimTx} (hk : Keyed db) (h : x.Sound db) (hc : ClaimCommit db x db') {r : Row} {count cap : ℤ}
    (hr : r ∉ x.held) (hs : db.Slots count cap r) : db'.runsAt r ≤ db.runsAt r := by
  cases hc with
  | @mk c slots at' counters =>
    rw [runsAt_commitClaim _ _ _ _ (h.pending hk at') r]
    have hzero : startedOf db c.ids r = 0 := by
      cases r with
      | job id => exact hs.elim
      | group k =>
        have hout : k ∉ ((claimedRows db c.ids x.args.worker x.now).filterMap (·.groupKey)).dedup := fun hin =>
          hr (counters _ (List.mem_append_left _ (List.mem_map_of_mem (List.mem_dedup.mp hin))))
        exact startedOf_group_eq_zero hout
      | queue n =>
        obtain ⟨q, hq, rfl, _⟩ := hs
        have hout : q.name ∉ ((claimedRows db c.ids x.args.worker x.now).map (·.queue)).dedup := by
          intro hin
          obtain ⟨j, hj, hjq⟩ := List.mem_map.mp (List.mem_dedup.mp hin)
          refine hr (counters _ (List.mem_append_right _ (List.mem_map.mpr ⟨q, List.mem_filter.mpr ⟨hq, ?_⟩, rfl⟩)))
          exact List.any_eq_true.mpr ⟨j, hj, decide_eq_true hjq⟩
        exact startedOf_queue_eq_zero hout
    rw [hzero]
    exact le_refl _

theorem Tx.Commits.leaves {x : Tx} (hk : Keyed db) (hx : x.Ok (fun _ => False) db) (hc : x.Commits db db') :
    Leaves (· ∈ x.held) db db' := by
  refine ⟨tx_disciplined.commits_same hk.unwatched hx hc, fun r count cap hr hs => ?_⟩
  cases hc with
  | claim hc => exact hc.runs hk hx.1 hr hs
  | settle hc =>
    obtain ⟨p, f, db₁, hset⟩ := hc.settled hk hx
    have hmove := hset.released.runsAt hset.running hset.ended r
    have hsame := (hset.grows.frame (hset.released.keyed hset.ids hk)).2.2 r
    omega

/-- One statement of a careful repair. -/
theorem RepairStmt.sound {x' : RepairTx} (h : x.Sound db) (hs : RepairStmt True free db x x') : x'.Sound db := by
  cases hs with
  | countGroups | countQueues => exact h
  | @lower r _ _ count cap at' hfree slots above ok =>
    intro r' n hn
    have hn : Function.update x.lowered r (some (x.seen.runsAt r : ℤ)) r' = some n := hn
    by_cases hr : r' = r
    · subst hr
      rw [Function.update_self] at hn
      cases hn
      exact ⟨List.mem_append_right _ (List.mem_singleton_self _), Int.ofNat_le.mpr (ok trivial), count, cap, slots⟩
    · rw [Function.update_of_ne hr] at hn
      obtain ⟨hheld, hle, hslots⟩ := h r' n hn
      exact ⟨List.mem_append_left _ hheld, hle, hslots⟩
  | pass at' hfree slots below =>
    intro r' n hn
    obtain ⟨hheld, hle, hslots⟩ := h r' n hn
    exact ⟨List.mem_append_left _ hheld, hle, hslots⟩

/-- The rows that a repair has lowered have room. -/
theorem RepairTx.Sound.least (h : x.Sound db) {r : Row} {count : ℤ} (hle : (db.runsAt r : ℤ) ≤ count) :
    (db.runsAt r : ℤ) ≤ x.least r count := by
  unfold RepairTx.least
  split
  · next n hn => exact le_min hle (h r n hn).2.1
  · exact hle

theorem RepairTx.write_keyed (hk : Keyed db) (x : RepairTx) : Keyed (x.write db) := by
  refine ⟨hk.ids, hk.fresh, ?_, ?_⟩
  · unfold RepairTx.write
    rw [List.map_map]
    exact hk.groups
  · unfold RepairTx.write
    rw [List.map_map]
    exact hk.queues

theorem RepairTx.Sound.covered (h : x.Sound db) (hk : Keyed db) (hc : Covered db) : Covered (x.write db) := by
  refine .of_rows (x.write_keyed hk) (fun g' hg' => ?_) (fun k hno => ?_) (fun q' hq' => ?_)
  · obtain ⟨g, hg, rfl⟩ := List.mem_map.mp hg'
    exact h.least (hc.row hk hg)
  · exact hc.idle (fun g hg hgk => hno _ (List.mem_map_of_mem hg) hgk)
  · obtain ⟨q, hq, rfl⟩ := List.mem_map.mp hq'
    exact h.least (hc.queues q hq)

/-- A repair writes only rows it holds. -/
theorem RepairTx.Sound.leaves (h : x.Sound db) : Leaves (· ∈ x.held) db (x.write db) := by
  have hsame : ∀ r count, r ∉ x.held → x.least r count = count := by
    intro r count hr
    unfold RepairTx.least
    split
    · next n hn => exact absurd (h r n hn).1 hr
    · rfl
  refine ⟨⟨fun j hj _ => hj, fun g hg hr => ?_, fun q hq hr => ?_⟩, fun r _ _ _ _ => le_refl _⟩
  · refine List.mem_map.mpr ⟨g, hg, ?_⟩
    rw [hsame _ _ hr]
  · refine List.mem_map.mpr ⟨q, hq, ?_⟩
    rw [hsame _ _ hr]

theorem RepairTx.Sound.spared (h : x.Sound db) (hl : Leaves own db db') (ho : ∀ r ∈ x.held, ¬ own r) : x.Sound db' := by
  intro r n hn
  obtain ⟨hheld, hle, count, cap, hs⟩ := h r n hn
  have hno := ho r hheld
  have hruns := hl.runs r count cap hno hs
  exact ⟨hheld, by omega, count, cap, hl.spares.slots hs hno⟩

/-- **Careful repairs keep to the rows they hold**, and so do the others. -/
theorem repairEngine_disciplined :
    (repairEngine True).Disciplined (fun db => Keyed db ∧ Covered db) Sound Leaves where
  begins_held := by
    rintro (x | x) r hb hr
    · exact tx_disciplined.begins_held hb hr
    · have hb : x = {} := hb
      subst hb
      exact List.not_mem_nil hr
  begins_ok := by
    rintro db (x | x) ⟨hk, _⟩ hb
    · exact tx_disciplined.begins_ok hk.unwatched hb
    · have hb : x = {} := hb
      subst hb
      exact fun _ _ => nofun
  stmt_held := by
    intro free db x x' r hs hr
    cases hs with
    | inl hs => exact tx_disciplined.stmt_held hs hr
    | inr hs =>
      cases hs with
      | countGroups | countQueues => exact Or.inl hr
      | lower at' hfree | pass at' hfree =>
        rcases List.mem_append.mp hr with hr | hr
        · exact Or.inl hr
        · exact Or.inr (List.mem_singleton.mp hr ▸ hfree)
  stmt_ok := by
    rintro free db x x' ⟨hk, _⟩ hx hs
    cases hs with
    | inl hs => exact tx_disciplined.stmt_ok hk.unwatched hx hs
    | inr hs => exact hs.sound hx
  commits_inv := by
    rintro db (x | x) db' ⟨hk, hc⟩ hx hcom
    · exact ⟨(tx_disciplined.commits_inv hk.unwatched hx hcom).keyed, hc.commits hk hx hcom⟩
    · cases hcom with
      | mk at' done => exact ⟨x.write_keyed hk, RepairTx.Sound.covered hx hk hc⟩
  commits_same := by
    rintro db (x | x) db' ⟨hk, _⟩ hx hcom
    · exact Tx.Commits.leaves hk hx hcom
    · cases hcom with
      | mk at' done => exact RepairTx.Sound.leaves hx
  stable := by
    rintro own db db' (x | x) hl ho hx
    · exact tx_disciplined.stable hl.spares ho hx
    · exact RepairTx.Sound.spared hx hl ho

end Discipline

/-- **Repairs do not make a counter too low**, in every interleaving with claims, verdicts and recoveries in which a row that
is lowered has no more running jobs than in the snapshot of the statement. -/
theorem repairs_cover {τ : Type} [DecidableEq τ] (z₀ z : Sessions Db (Tx ⊕ RepairTx) τ) (hidle : ∀ t, z₀.opened t = none)
    (hk : Keyed z₀.store) (hc : Covered z₀.store) (h : Reach (repairEngine True).Step z₀ z) : Covered z.store :=
  (repairEngine_disciplined.kept hidle ⟨hk, hc⟩ h).inv.2

/-! ## A repair beside the transactions of others -/

section Beside

variable {τ : Type} {careful : Prop} {z z' : Traffic τ} {db : Db} {x x' : RepairTx}

/-- The transactions of others, and at most one repair. -/
def beside (z : Traffic τ) (o : Option RepairTx) : Sessions Db (Tx ⊕ RepairTx) (Option τ) where
  store := z.store
  opened
    | none => o.map .inr
    | some t => (z.opened t).map .inl

/-- As long as the repair holds no row, the others see the same rows free. -/
theorem beside_free {o : Option RepairTx} (ho : ∀ x ∈ o, x.held = []) (t : τ) :
    (repairEngine careful).Free (beside z o) (some t) = engine.Free z t := by
  funext r
  refine propext ⟨fun h t' l hne hl => ?_, fun h t' l hne hl => ?_⟩
  · exact h (some t') (.inl l) (fun he => hne (Option.some.inj he)) (congrArg (Option.map Sum.inl) hl)
  · cases t' with
    | none =>
      obtain ⟨x, hx, rfl⟩ := Option.map_eq_some_iff.mp hl
      intro hr
      have hr : r ∈ x.held := hr
      rw [ho x hx] at hr
      cases hr
    | some t' =>
      obtain ⟨l', hl', rfl⟩ := Option.map_eq_some_iff.mp hl
      exact h t' l' (fun he => hne (congrArg some he)) hl'

/-- With no other transaction open, every row is free for the repair. -/
theorem quiet_free (o : Option RepairTx) (r : Row) : (repairEngine careful).Free (beside (quiet db : Traffic τ) o) none r := by
  intro t l hne hl
  cases t with
  | none => exact absurd rfl hne
  | some t => cases hl

variable [DecidableEq τ]

theorem beside_update (z : Traffic τ) (s : Db) (o : Option RepairTx) (t : τ) (l : Option Tx) :
    beside { store := s, opened := Function.update z.opened t l } o =
      { store := s, opened := Function.update (beside z o).opened (some t) (l.map .inl) } := by
  unfold beside
  congr 1
  funext t'
  cases t' with
  | none => rfl
  | some t' =>
    by_cases ht : t' = t
    · subst ht
      simp only [Function.update_self]
    · have hne : (some t' : Option τ) ≠ some t := fun he => ht (Option.some.inj he)
      simp only [Function.update_of_ne ht, Function.update_of_ne hne]

/-- A run of the others is a run beside the repair. -/
theorem beside_reach {z₀ : Sessions Db (Tx ⊕ RepairTx) (Option τ)} {o : Option RepairTx} (ho : ∀ x ∈ o, x.held = [])
    (h₀ : Reach (repairEngine careful).Step z₀ (beside z o)) (h : Reach engine.Step z z') :
    Reach (repairEngine careful).Step z₀ (beside z' o) := by
  refine Reach.inv (P := fun y => Reach (repairEngine careful).Step z₀ (beside y o)) h h₀ (fun y t y' hy hs => ?_)
  refine hy.step (a := some t) ?_
  have hopened : ∀ {o' : Option Tx}, y.opened t = o' → (beside y o).opened (some t) = o'.map Sum.inl := fun he =>
    congrArg (Option.map Sum.inl) he
  cases hs with
  | @begin l idle hb =>
    have hb : (repairEngine careful).begins (Sum.inl l) := hb
    rw [beside_update]
    exact .begin (hopened idle) hb
  | @stmt l l' now hst =>
    have hst : (repairEngine careful).stmt ((repairEngine careful).Free (beside y o) (some t)) (beside y o).store (Sum.inl l)
        (Sum.inl l') := by
      rw [beside_free ho]
      exact Sum.LiftRel.inl hst
    rw [beside_update]
    exact .stmt (hopened now) hst
  | @commit l s now hcom =>
    have hcom : (repairEngine careful).commits (beside y o).store (Sum.inl l) s := hcom
    rw [beside_update]
    exact .commit (hopened now) hcom
  | rollback =>
    rw [beside_update]
    exact .rollback

theorem repair_update (db s : Db) (o o' : Option RepairTx) :
    beside (quiet s : Traffic τ) o' =
      { store := s, opened := Function.update (beside (quiet db : Traffic τ) o).opened none (o'.map Sum.inr) } := by
  unfold beside
  congr 1
  funext t
  cases t with
  | none => simp only [Function.update_self]
  | some t => rfl

variable {z₀ : Sessions Db (Tx ⊕ RepairTx) (Option τ)}

theorem repair_begin (h : Reach (repairEngine careful).Step z₀ (beside (quiet db) none)) :
    Reach (repairEngine careful).Step z₀ (beside (quiet db) (some {})) := by
  have hb : (repairEngine careful).begins (Sum.inr {}) := rfl
  have hidle : (beside (quiet db : Traffic τ) none).opened none = none := rfl
  refine h.step (a := none) ?_
  rw [repair_update db db none (some {})]
  exact .begin hidle hb

theorem repair_stmt (h : Reach (repairEngine careful).Step z₀ (beside (quiet db) (some x)))
    (hs : RepairStmt careful ((repairEngine careful).Free (beside (quiet db : Traffic τ) (some x)) none) db x x') :
    Reach (repairEngine careful).Step z₀ (beside (quiet db) (some x')) := by
  have hopen : (beside (quiet db : Traffic τ) (some x)).opened none = some (Sum.inr x) := rfl
  have hst : (repairEngine careful).stmt ((repairEngine careful).Free (beside (quiet db : Traffic τ) (some x)) none) db
    (Sum.inr x) (Sum.inr x') := Sum.LiftRel.inr hs
  refine h.step (a := none) ?_
  rw [repair_update db db (some x) (some x')]
  exact .stmt hopen hst

theorem repair_commit {db' : Db} (h : Reach (repairEngine careful).Step z₀ (beside (quiet db) (some x)))
    (hc : RepairCommit db x db') : Reach (repairEngine careful).Step z₀ (beside (quiet db') none) := by
  have hopen : (beside (quiet db : Traffic τ) (some x)).opened none = some (Sum.inr x) := rfl
  refine h.step (a := none) ?_
  rw [repair_update db db' (some x) none]
  exact .commit hopen hc

/-- The rows of a statement, one by one, when nobody has written since its snapshot. -/
theorem repair_lowers : ∀ (rows : List Row) {x : RepairTx},
    Reach (repairEngine careful).Step z₀ (beside (quiet db) (some x)) → x.seen = db → x.todo = rows →
    (∀ r ∈ rows, ∃ count cap, db.Slots count cap r ∧ (db.runsAt r : ℤ) < count) →
    ∃ held, Reach (repairEngine careful).Step z₀ (beside (quiet db) (some { x with
      todo := [], held := held, lowered := fun r => if r ∈ rows then some (db.runsAt r : ℤ) else x.lowered r }))
  | [], x, h, _, htodo, _ => by
    have heq : x = { x with
        todo := [], held := x.held, lowered := fun r => if r ∈ ([] : List Row) then some (db.runsAt r : ℤ) else x.lowered r } := by
      cases x
      cases htodo
      simp
    rw [heq] at h
    exact ⟨x.held, h⟩
  | r :: rows, x, h, hseen, htodo, hrows => by
    obtain ⟨count, cap, hslots, habove⟩ := hrows r List.mem_cons_self
    have habove : (x.seen.runsAt r : ℤ) < count := hseen ▸ habove
    have hs := repair_stmt h (.lower (show x.todo = [] ++ r :: rows from htodo) (quiet_free _ r) hslots habove (fun _ => hseen ▸ le_refl _))
    obtain ⟨held, hrest⟩ := repair_lowers rows hs hseen rfl (fun r' hr' => hrows r' (List.mem_cons_of_mem _ hr'))
    refine ⟨held, ?_⟩
    have heq : (fun r' => if r' ∈ r :: rows then some (db.runsAt r' : ℤ) else x.lowered r') = fun r' =>
        if r' ∈ rows then some (db.runsAt r' : ℤ)
        else Function.update x.lowered r (some (x.seen.runsAt r : ℤ)) r' := by
      funext r'
      by_cases hr : r' = r
      · subst hr
        simp [hseen]
      · simp [hr]
    rw [heq]
    exact hrest

/-- A drifted row has a counter above its running jobs. -/
theorem driftedGroups_slots {r : Row} (hr : r ∈ db.driftedGroups) :
    ∃ count cap, db.Slots count cap r ∧ (db.runsAt r : ℤ) < count := by
  obtain ⟨g, hg, rfl⟩ := List.mem_map.mp hr
  obtain ⟨hg, hd⟩ := List.mem_filter.mp hg
  exact ⟨g.runningCount, g.maxConcurrency, ⟨g, hg, rfl, rfl, rfl⟩, of_decide_eq_true (Bool.and_eq_true_iff.mp hd).2⟩

theorem driftedQueues_slots {r : Row} (hr : r ∈ db.driftedQueues) :
    ∃ count cap, db.Slots count cap r ∧ (db.runsAt r : ℤ) < count := by
  obtain ⟨q, hq, rfl⟩ := List.mem_map.mp hr
  obtain ⟨hq, hd⟩ := List.mem_filter.mp hq
  exact ⟨q.runningCount, q.maxConcurrency, ⟨q, hq, rfl, rfl, rfl⟩, of_decide_eq_true (Bool.and_eq_true_iff.mp hd).2⟩

theorem Keyed.driftedGroups (hk : Keyed db) {g : GroupRow} (hg : g ∈ db.groups) :
    .group g.key ∈ db.driftedGroups ↔ db.groupDrifted g = true := by
  refine ⟨fun h => ?_, fun h => List.mem_map_of_mem (List.mem_filter.mpr ⟨hg, h⟩)⟩
  obtain ⟨g', hg', hkey⟩ := List.mem_map.mp h
  obtain ⟨hg', hd⟩ := List.mem_filter.mp hg'
  rwa [List.inj_on_of_nodup_map hk.groups hg' hg (Row.group.inj hkey)] at hd

theorem Keyed.driftedQueues (hk : Keyed db) {q : QueueRow} (hq : q ∈ db.queues) :
    .queue q.name ∈ db.driftedQueues ↔ db.queueDrifted q = true := by
  refine ⟨fun h => ?_, fun h => List.mem_map_of_mem (List.mem_filter.mpr ⟨hq, h⟩)⟩
  obtain ⟨q', hq', hname⟩ := List.mem_map.mp h
  obtain ⟨hq', hd⟩ := List.mem_filter.mp hq'
  rwa [List.inj_on_of_nodup_map hk.queues hq' hq (Row.queue.inj hname)] at hd

/-- The tables after the drifted rows have been lowered. -/
theorem RepairTx.write_drifted (hk : Keyed db) (hx : x.lowered = fun r =>
    if r ∈ db.driftedQueues then some (db.runsAt r : ℤ) else if r ∈ db.driftedGroups then some (db.runsAt r : ℤ) else none) :
    x.write db = (reconcileCounters db).1 := by
  have hgroup : ∀ k, Row.group k ∉ db.driftedQueues := by
    intro k h
    obtain ⟨q, _, he⟩ := List.mem_map.mp h
    cases he
  have hqueue : ∀ n, Row.queue n ∉ db.driftedGroups := by
    intro n h
    obtain ⟨g, _, he⟩ := List.mem_map.mp h
    cases he
  unfold RepairTx.write reconcileCounters updateWhere RepairTx.least
  dsimp only
  congr 1
  · refine List.map_congr_left (fun g hg => ?_)
    rw [hx]
    dsimp only
    by_cases hd : db.groupDrifted g = true
    · rw [if_neg (hgroup _), if_pos ((hk.driftedGroups hg).mpr hd), if_pos hd]
      rfl
    · rw [if_neg (hgroup _), if_neg (fun hin => hd ((hk.driftedGroups hg).mp hin)), if_neg hd]
  · refine List.map_congr_left (fun q hq => ?_)
    rw [hx]
    dsimp only
    by_cases hd : db.queueDrifted q = true
    · rw [if_pos ((hk.driftedQueues hq).mpr hd), if_pos hd]
      rfl
    · rw [if_neg (fun hin => hd ((hk.driftedQueues hq).mp hin)), if_neg (hqueue _), if_neg hd]

/-- **Without interruption the statements of a repair make `reconcileCounters`.** -/
theorem reconcileCounters_alone (hk : Keyed db) : Reach (repairEngine careful).Step (beside (quiet db : Traffic τ) none)
    (beside (quiet (reconcileCounters db).1) none) := by
  have h₀ : Reach (repairEngine careful).Step (beside (quiet db : Traffic τ) none) (beside (quiet db) none) := .refl _
  have h₁ := repair_begin h₀
  have h₂ := repair_stmt h₁ (.countGroups rfl)
  obtain ⟨held, h₃⟩ := repair_lowers _ h₂ rfl rfl (fun _ => driftedGroups_slots)
  have h₄ := repair_stmt h₃ (.countQueues rfl rfl)
  obtain ⟨held', h₅⟩ := repair_lowers _ h₄ rfl rfl (fun _ => driftedQueues_slots)
  have h₆ := repair_commit h₅ (.mk rfl rfl)
  rw [RepairTx.write_drifted hk rfl] at h₆
  exact h₆

end Beside

/-- A queue with a slot that nobody has, and a job that waits. -/
def driftedQueue : Db where
  jobs := [newJob { kind := "mail", payload := .null, queue := "slow" } 1 1000]
  queues := [{ name := "slow", maxConcurrency := 2, runningCount := 1 }]
  nextJob := 2

theorem driftedQueue_keyed : Keyed driftedQueue := ⟨by decide, by decide, by decide, by decide⟩

theorem driftedQueue_covered : Covered driftedQueue := ⟨fun _ => le_refl _, by decide⟩

/-- The lost slot is given back. -/
theorem driftedQueue_repaired : (reconcileCounters driftedQueue).1.queues.map (·.runningCount) = [0] ∧
    Covered (reconcileCounters driftedQueue).1 := by
  have h := repairs_cover (beside (quiet driftedQueue : Traffic Unit) none)
    (beside (quiet (reconcileCounters driftedQueue).1) none) (fun t => by cases t <;> rfl) driftedQueue_keyed
    driftedQueue_covered (reconcileCounters_alone driftedQueue_keyed)
  exact ⟨by decide, h⟩

def slowArgs : ClaimArgs where
  worker := "a"
  batchSize := 1
  kinds := ["mail"]
  queues := ["slow"]

def slowOrder : MapOrder where
  list := fun l => l
  perm := MapOrder.asRead

/-- The job is claimed after the snapshot. -/
def slowClaimed : Db := (claimBatch driftedQueue slowArgs 2000 2000 slowOrder).1

/-- The repair that has its counts. -/
def countedRepair : RepairTx where
  stage := .queues
  seen := driftedQueue
  todo := [.queue "slow"]

/-- The repair that has lowered the row. -/
def loweredRepair : RepairTx where
  stage := .queues
  seen := driftedQueue
  lowered := Function.update (fun _ => none) (.queue "slow") (some (driftedQueue.runsAt (.queue "slow") : ℤ))
  held := [.queue "slow"]

/-- **A claim between the snapshot and the update is erased**: the counter is 0 while the job runs. -/
theorem repair_erases : Keyed driftedQueue ∧ Covered driftedQueue ∧ ∃ z : Sessions Db (Tx ⊕ RepairTx) (Option Unit),
    Reach (repairEngine False).Step (beside (quiet driftedQueue) none) z ∧ (∀ t, z.opened t = none) ∧
    z.store.runsAt (.queue "slow") = 1 ∧ z.store.queues.map (·.runningCount) = [0] ∧ ¬ Covered z.store := by
  have h : Reach (repairEngine False).Step (beside (quiet driftedQueue : Traffic Unit) none) (beside (quiet driftedQueue) none) :=
    .refl _
  have h := repair_begin h
  have h := repair_stmt h (.countGroups rfl)
  have h : Reach (repairEngine False).Step (beside (quiet driftedQueue : Traffic Unit) none)
      (beside (quiet driftedQueue) (some countedRepair)) := repair_stmt h (.countQueues rfl rfl)
  have h : Reach (repairEngine False).Step (beside (quiet driftedQueue : Traffic Unit) none)
      (beside (quiet slowClaimed) (some countedRepair)) :=
    beside_reach (fun x hx => by cases hx; rfl) h (claimBatch_alone () driftedQueue slowArgs 2000 2000 slowOrder)
  have hslots : slowClaimed.Slots 2 2 (.queue "slow") := by
    refine ⟨{ name := "slow", maxConcurrency := 2, runningCount := 2 }, ?_, rfl, rfl, rfl⟩
    exact List.mem_singleton.mpr rfl
  have h : Reach (repairEngine False).Step (beside (quiet driftedQueue : Traffic Unit) none)
      (beside (quiet slowClaimed) (some loweredRepair)) :=
    repair_stmt h (.lower (show countedRepair.todo = [] ++ .queue "slow" :: [] from rfl) (quiet_free _ _) hslots (by decide)
      False.elim)
  have h := repair_commit h (.mk rfl rfl)
  have hruns : (loweredRepair.write slowClaimed).runsAt (.queue "slow") = 1 := by decide +kernel
  have hcount : (loweredRepair.write slowClaimed).queues.map (·.runningCount) = [0] := by decide +kernel
  refine ⟨driftedQueue_keyed, driftedQueue_covered, _, h, fun t => by cases t <;> rfl, hruns, hcount, fun hc => ?_⟩
  obtain ⟨q, hq, hzero⟩ := List.mem_map.mp (hcount ▸ List.mem_singleton_self 0)
  have hname : q.name = "slow" := by
    have hall : ∀ q ∈ (loweredRepair.write slowClaimed).queues, q.name = "slow" := by decide +kernel
    exact hall q hq
  have hle := hc.queues q hq
  rw [hname, hzero] at hle
  exact absurd (hruns ▸ hle) (by decide)

end Eddyq.Pg
