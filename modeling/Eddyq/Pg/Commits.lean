import Eddyq.Pg.CounterRuns
import Eddyq.Pg.Interleaved

/-!
# What a commit does to the rows

A claim starts pending jobs and raises the counters of their rows by as many (`Slots.commitClaim`, `runsAt_commitClaim`); a
verdict or a recovery ends running jobs and lowers the counters by at most as many (`Released`), then may add rows
(`Grows`). In both cases nothing changes outside the rows the transaction holds (`ClaimCommit.spares`,
`SettleCommit.spares`), and a counter that is not below its running jobs stays so.
-/

namespace Eddyq.Pg

open Eddyq.Lib

/-- How many committed jobs of the row are running. -/
def Db.runsAt (db : Db) (r : Row) : Nat := db.jobs.countP (fun j => j.running && r.has j)

/-- There is one row. -/
theorem Keyed.slots_unique {db : Db} (h : Keyed db) {r : Row} {n n' cap cap' : ℤ} (hs : db.Slots n cap r)
    (hs' : db.Slots n' cap' r) : n = n' := by
  cases r with
  | job id => exact hs.elim
  | group k =>
    obtain ⟨g, hg, hkey, hn, _⟩ := hs
    obtain ⟨g', hg', hkey', hn', _⟩ := hs'
    have heq : g = g' := List.inj_on_of_nodup_map h.groups hg hg' (hkey.trans hkey'.symm)
    rw [← hn, ← hn', heq]
  | queue k =>
    obtain ⟨q, hq, hname, hn, _⟩ := hs
    obtain ⟨q', hq', hname', hn', _⟩ := hs'
    have heq : q = q' := List.inj_on_of_nodup_map h.queues hq hq' (hname.trans hname'.symm)
    rw [← hn, ← hn', heq]

/-! ## Claims -/

section Claims

variable {db : Db}

/-- The loop over the queues of a claim, row by row. -/
theorem bumpQueues_eq (rows : List JobRow) : ∀ (names : List String) (db : Db), names.Nodup →
    names.foldl (bumpQueue rows) db = { db with
      queues := db.queues.map (fun q => if q.name ∈ names then { q with
        runningCount := q.runningCount + queueDelta rows q.name } else q) }
  | [], db, _ => by simp
  | name :: names, db, hnd => by
    rw [List.nodup_cons] at hnd
    rw [List.foldl_cons, bumpQueues_eq rows names _ hnd.2]
    simp only [bumpQueue, updateWhere, List.map_map]
    congr 1
    refine List.map_congr_left (fun q _ => ?_)
    by_cases hq : q.name = name
    · simp [hq, hnd.1]
    · simp [hq]

/-- A group row after the upsert of a counter. -/
theorem bumpGroup_row (slots : List (String × GroupState)) (rows : List JobRow) (clock : ℤ) (key : String) {g : GroupRow}
    (hg : g ∈ db.groups) : ∃ g' ∈ (bumpGroup slots rows clock db key).groups, g'.key = g.key ∧
      g'.maxConcurrency = g.maxConcurrency ∧
      g'.runningCount = g.runningCount + (if g.key = key then groupDelta rows key else 0) ∧ (g.key ≠ key → g' = g) := by
  have hup : ∀ (new : GroupRow) (f : GroupRow → GroupRow), new.key = key →
      (∀ g, (f g).key = g.key ∧ (f g).maxConcurrency = g.maxConcurrency ∧
        (f g).runningCount = g.runningCount + groupDelta rows key) →
      ∃ g' ∈ (upsertGroup db new f).groups, g'.key = g.key ∧ g'.maxConcurrency = g.maxConcurrency ∧
        g'.runningCount = g.runningCount + (if g.key = key then groupDelta rows key else 0) ∧ (g.key ≠ key → g' = g) := by
    intro new f hnew hf
    by_cases hk : g.key = key
    · have hany : db.groups.any (·.key = new.key) = true :=
        List.any_eq_true.mpr ⟨g, hg, decide_eq_true (hk.trans hnew.symm)⟩
      unfold upsertGroup
      rw [if_pos hany]
      refine ⟨_, mem_updateWhere_of_mem hg, ?_⟩
      rw [if_pos (decide_eq_true (hk.trans hnew.symm)), if_pos hk]
      exact ⟨(hf g).1, (hf g).2.1, (hf g).2.2, fun hne => absurd hk hne⟩
    · refine ⟨g, ?_, rfl, rfl, by rw [if_neg hk, add_zero], fun _ => rfl⟩
      unfold upsertGroup
      split
      · have hkeep := mem_updateWhere_of_mem (p := fun g : GroupRow => g.key = new.key) (f := f) hg
        have hno : ¬ decide (g.key = new.key) = true := fun hd => hk ((of_decide_eq_true hd).trans hnew)
        rwa [if_neg hno] at hkeep
      · exact List.mem_append_left _ hg
  unfold bumpGroup
  dsimp only
  split
  · split
    · exact hup _ _ rfl (fun _ => ⟨rfl, rfl, rfl⟩)
    · exact hup _ _ rfl (fun _ => ⟨rfl, rfl, rfl⟩)
  · exact hup _ _ rfl (fun _ => ⟨rfl, rfl, rfl⟩)

/-- An upsert makes no second row. -/
theorem upsertGroup_keys (h : (db.groups.map (·.key)).Nodup) (new : GroupRow) {f : GroupRow → GroupRow}
    (hf : ∀ g, (f g).key = g.key) : ((upsertGroup db new f).groups.map (·.key)).Nodup := by
  unfold upsertGroup
  split
  · rwa [map_updateWhere hf]
  · next hnew =>
    rw [List.map_append, List.map_singleton, List.nodup_append']
    refine ⟨h, List.nodup_singleton _, fun k hk hk' => hnew ?_⟩
    obtain ⟨g, hg, rfl⟩ := List.mem_map.mp hk
    exact List.any_eq_true.mpr ⟨g, hg, decide_eq_true (List.mem_singleton.mp hk')⟩

/-- The loop over the groups of a claim, row by row. -/
theorem bumpGroups_row (slots : List (String × GroupState)) (rows : List JobRow) (clock : ℤ) :
    ∀ (keys : List String) (db : Db), keys.Nodup → (db.groups.map (·.key)).Nodup →
      ((keys.foldl (bumpGroup slots rows clock) db).groups.map (·.key)).Nodup ∧
      ∀ g ∈ db.groups, ∃ g' ∈ (keys.foldl (bumpGroup slots rows clock) db).groups, g'.key = g.key ∧
        g'.maxConcurrency = g.maxConcurrency ∧
        g'.runningCount = g.runningCount + (if g.key ∈ keys then groupDelta rows g.key else 0) ∧ (g.key ∉ keys → g' = g)
  | [], db, _, hk => ⟨hk, fun g hg => ⟨g, hg, rfl, rfl, by simp, fun _ => rfl⟩⟩
  | key :: keys, db, hnd, hk => by
    rw [List.nodup_cons] at hnd
    obtain ⟨new, f, heq, _, _, hf⟩ := bumpGroup_eq slots rows clock db key
    have hk' : ((bumpGroup slots rows clock db key).groups.map (·.key)).Nodup := by
      rw [heq]
      exact upsertGroup_keys hk new (fun g => (hf g).1)
    obtain ⟨ih, ihrow⟩ := bumpGroups_row slots rows clock keys _ hnd.2 hk'
    rw [List.foldl_cons]
    refine ⟨ih, fun g hg => ?_⟩
    obtain ⟨g₁, hg₁, hkey₁, hcap₁, hcount₁, hsame₁⟩ := bumpGroup_row slots rows clock key hg
    obtain ⟨g₂, hg₂, hkey₂, hcap₂, hcount₂, hsame₂⟩ := ihrow g₁ hg₁
    refine ⟨g₂, hg₂, hkey₂.trans hkey₁, hcap₂.trans hcap₁, ?_, fun hno => ?_⟩
    · rw [hcount₂, hcount₁, hkey₁]
      by_cases hgk : g.key = key
      · simp [hgk, hnd.1]
      · simp [hgk]
    · rw [List.mem_cons, not_or] at hno
      rw [hsame₂ (hkey₁ ▸ hno.2), hsame₁ hno.1]

theorem bumpGroups_queues (slots : List (String × GroupState)) (rows : List JobRow) (clock : ℤ) (keys : List String) (db : Db) :
    (keys.foldl (bumpGroup slots rows clock) db).queues = db.queues := by
  refine List.foldlRecOn _ _ (motive := fun x : Db => x.queues = db.queues) rfl (fun x hx key _ => ?_)
  obtain ⟨new, f, heq, _⟩ := bumpGroup_eq slots rows clock x key
  rw [heq, (upsertGroup_frame x new f).2.1, hx]

/-- How many of the rows a claim starts are of a row. -/
def startedOf (db : Db) (ids : List JobId) (r : Row) : Nat := db.jobs.countP (fun j => decide (j.id ∈ ids) && r.has j)

/-- The tables that the loops of a claim start from. -/
theorem commitClaim_tables (a : ClaimArgs) (slots : List (String × GroupState)) (ids : List JobId) (now clock : ℤ) :
    commitClaim db a slots ids now clock =
      ((claimedRows db ids a.worker now).map (·.queue)).dedup.foldl (bumpQueue (claimedRows db ids a.worker now))
        (((claimedRows db ids a.worker now).filterMap (·.groupKey)).dedup.foldl
          (bumpGroup slots (claimedRows db ids a.worker now) clock)
          { db with jobs := updateWhere (fun j => j.id ∈ ids) (·.start a.worker now) db.jobs }) := rfl

theorem groupDelta_claimed (ids : List JobId) (w : WorkerId) (now : ℤ) (k : String) :
    groupDelta (claimedRows db ids w now) k = startedOf db ids (.group k) := groupDelta_rows ids w now k

theorem queueDelta_claimed (ids : List JobId) (w : WorkerId) (now : ℤ) (n : String) :
    queueDelta (claimedRows db ids w now) n = startedOf db ids (.queue n) := queueDelta_rows ids w now n

/-- A row with no claimed job is not in the loop. -/
theorem startedOf_group_eq_zero {ids : List JobId} {w : WorkerId} {now : ℤ} {k : String}
    (h : k ∉ ((claimedRows db ids w now).filterMap (·.groupKey)).dedup) : startedOf db ids (.group k) = 0 := by
  have hdelta := groupDelta_of_notMem h
  rwa [groupDelta_claimed, Nat.cast_eq_zero] at hdelta

theorem startedOf_queue_eq_zero {ids : List JobId} {w : WorkerId} {now : ℤ} {n : String}
    (h : n ∉ ((claimedRows db ids w now).map (·.queue)).dedup) : startedOf db ids (.queue n) = 0 := by
  have hdelta := queueDelta_of_notMem h
  rwa [queueDelta_claimed, Nat.cast_eq_zero] at hdelta

/-- **The counters of a claim**: each row gets as many as the claim starts of it, and its other columns stay. -/
theorem commitClaim_group (h : Keyed db) (a : ClaimArgs) (slots : List (String × GroupState)) (ids : List JobId)
    (now clock : ℤ) {g : GroupRow} (hg : g ∈ db.groups) :
    ∃ g' ∈ (commitClaim db a slots ids now clock).groups, g'.key = g.key ∧ g'.maxConcurrency = g.maxConcurrency ∧
      g'.runningCount = g.runningCount + startedOf db ids (.group g.key) ∧
      (g.key ∉ (claimedRows db ids a.worker now).filterMap (·.groupKey) → g' = g) := by
  obtain ⟨_, hrow⟩ := bumpGroups_row slots (claimedRows db ids a.worker now) clock
    ((claimedRows db ids a.worker now).filterMap (·.groupKey)).dedup
    { db with jobs := updateWhere (fun j => j.id ∈ ids) (·.start a.worker now) db.jobs } (List.nodup_dedup _) h.groups
  obtain ⟨g', hg', hkey, hcap, hcount, hsame⟩ := hrow g hg
  rw [commitClaim_tables, bumpQueues_eq _ _ _ (List.nodup_dedup _)]
  refine ⟨g', hg', hkey, hcap, ?_, fun hno => hsame (fun hd => hno (List.mem_dedup.mp hd))⟩
  rw [hcount, groupDelta_claimed]
  split
  · rfl
  · next hno => rw [startedOf_group_eq_zero hno, Nat.cast_zero]

theorem commitClaim_queue (a : ClaimArgs) (slots : List (String × GroupState)) (ids : List JobId) (now clock : ℤ)
    {q : QueueRow} (hq : q ∈ db.queues) :
    { q with runningCount := q.runningCount + startedOf db ids (.queue q.name) } ∈
      (commitClaim db a slots ids now clock).queues := by
  rw [commitClaim_tables, bumpQueues_eq _ _ _ (List.nodup_dedup _)]
  rw [bumpGroups_queues]
  refine List.mem_map.mpr ⟨q, hq, ?_⟩
  by_cases hin : q.name ∈ ((claimedRows db ids a.worker now).map (·.queue)).dedup
  · rw [if_pos hin, queueDelta_claimed]
  · rw [if_neg hin, startedOf_queue_eq_zero hin]
    simp

theorem Slots.commitClaim (h : Keyed db) (a : ClaimArgs) (slots : List (String × GroupState)) (ids : List JobId)
    (now clock : ℤ) {count cap : ℤ} {r : Row} (hs : db.Slots count cap r) :
    (commitClaim db a slots ids now clock).Slots (count + startedOf db ids r) cap r := by
  cases r with
  | job id => exact hs
  | group k =>
    obtain ⟨g, hg, rfl, rfl, rfl⟩ := hs
    obtain ⟨g', hg', hkey, hcap, hcount, _⟩ := commitClaim_group h a slots ids now clock hg
    exact ⟨g', hg', hkey, hcount, hcap⟩
  | queue n =>
    obtain ⟨q, hq, rfl, rfl, rfl⟩ := hs
    exact ⟨_, commitClaim_queue a slots ids now clock hq, rfl, rfl, rfl⟩

theorem Keyed.commitClaim (h : Keyed db) (a : ClaimArgs) (slots : List (String × GroupState)) (ids : List JobId)
    (now clock : ℤ) : Keyed (commitClaim db a slots ids now clock) := by
  obtain ⟨hgroups, _⟩ := bumpGroups_row slots (claimedRows db ids a.worker now) clock
    ((claimedRows db ids a.worker now).filterMap (·.groupKey)).dedup
    { db with jobs := updateWhere (fun j => j.id ∈ ids) (·.start a.worker now) db.jobs } (List.nodup_dedup _) h.groups
  obtain ⟨gs, qs, heq⟩ := commitClaim_eq db a slots ids now clock
  have hids : (updateWhere (fun j => decide (j.id ∈ ids)) (·.start a.worker now) db.jobs).map (·.id) =
      db.jobs.map (·.id) := map_updateWhere (fun j => show (j.start a.worker now).id = j.id from rfl) _
  refine ⟨?_, fun j hj => ?_, ?_, ?_⟩
  · rw [heq, hids]
    exact h.ids
  · rw [heq] at hj ⊢
    obtain ⟨j₀, hj₀, rfl⟩ := mem_updateWhere.mp hj
    split <;> exact h.fresh j₀ hj₀
  · rw [commitClaim_tables, bumpQueues_eq _ _ _ (List.nodup_dedup _)]
    exact hgroups
  · rw [commitClaim_tables, bumpQueues_eq _ _ _ (List.nodup_dedup _), bumpGroups_queues, List.map_map]
    refine (List.map_congr_left (fun q _ => ?_)) ▸ h.queues
    simp only [Function.comp_apply]
    split <;> rfl

/-- A job belongs to the same rows when it starts. -/
theorem has_start (w : WorkerId) (now : ℤ) (r : Row) (j : JobRow) : r.has (j.start w now) = r.has j := by
  cases r <;> rfl

theorem runsAt_commitClaim (a : ClaimArgs) (slots : List (String × GroupState)) {ids : List JobId} (now clock : ℤ)
    (hids : ∀ j ∈ db.jobs, j.id ∈ ids → j.state = .pending) (r : Row) :
    (commitClaim db a slots ids now clock).runsAt r = db.runsAt r + startedOf db ids r := by
  obtain ⟨gs, qs, heq⟩ := commitClaim_eq db a slots ids now clock
  rw [Db.runsAt, heq]
  refine countP_start (fun j hj hid => ?_) (fun _ => rfl) (fun _ => rfl) (has_start a.worker now r)
  rw [JobRow.running, hids j hj (of_decide_eq_true hid)]
  rfl

/-- A claim starts no more jobs of a row than it has picked. -/
theorem startedOf_le (h : Keyed db) {held : List Row} {queues : List String} {c : Claiming}
    (hp : AllPicked db held queues c) (r : Row) : (startedOf db c.ids r : ℤ) ≤ c.count r := by
  have hn : ((db.jobs.filter (fun j => decide (j.id ∈ c.ids) && r.has j)).map (·.id)).Nodup :=
    h.ids.sublist (List.Sublist.map _ List.filter_sublist)
  have hsub : (db.jobs.filter (fun j => decide (j.id ∈ c.ids) && r.has j)).map (·.id) ⊆
      (c.accepted.filter (fun y => r.takes y)).map (·.id) := by
    intro id hid
    obtain ⟨j, hj, rfl⟩ := List.mem_map.mp hid
    obtain ⟨hm, hhit⟩ := List.mem_filter.mp hj
    rw [Bool.and_eq_true] at hhit
    obtain ⟨y, hy, hyid⟩ := List.mem_map.mp (of_decide_eq_true hhit.1)
    -- the pick says of the job what its row says
    obtain ⟨j', hm', hid', _, hqueue, hgroup⟩ := (hp y hy).row
    have heq : j' = j := List.inj_on_of_nodup_map h.ids hm' hm (hid'.trans hyid)
    subst heq
    have htakes : r.takes y = true := by
      cases r with
      | job i => simpa [Row.takes, Row.has, hid'] using hhit.2
      | group k => simpa [Row.takes, Row.has, hgroup] using hhit.2
      | queue n => simpa [Row.takes, Row.has, hqueue] using hhit.2
    exact List.mem_map.mpr ⟨y, List.mem_filter.mpr ⟨hy, htakes⟩, hyid⟩
  have hle := (List.subperm_of_subset hn hsub).length_le
  rw [List.length_map, List.length_map, ← List.countP_eq_length_filter, ← List.countP_eq_length_filter] at hle
  exact Int.ofNat_le.mpr hle

/-- Job rows that a claim has not picked stay as they are. -/
theorem AllPicked.jobs_spared {held : List Row} {queues : List String} {c : Claiming} (hp : AllPicked db held queues c)
    (a : ClaimArgs) (slots : List (String × GroupState)) (now clock : ℤ) {j : JobRow} (hj : j ∈ db.jobs)
    (hno : .job j.id ∉ held) : j ∈ (commitClaim db a slots c.ids now clock).jobs := by
  obtain ⟨gs, qs, heq⟩ := commitClaim_eq db a slots c.ids now clock
  rw [heq]
  have hkeep := mem_updateWhere_of_mem (p := fun j : JobRow => decide (j.id ∈ c.ids)) (f := (·.start a.worker now)) hj
  have hout : ¬ decide (j.id ∈ c.ids) = true := by
    intro hin
    obtain ⟨y, hy, hyid⟩ := List.mem_map.mp (of_decide_eq_true hin)
    exact hno (hyid ▸ (hp y hy).held)
  rwa [if_neg hout] at hkeep

/-- Group rows of which it starts no job, too. -/
theorem Keyed.groups_spared (h : Keyed db) (a : ClaimArgs) (slots : List (String × GroupState)) {ids : List JobId}
    (now clock : ℤ) {g : GroupRow} (hg : g ∈ db.groups)
    (hout : g.key ∉ (claimedRows db ids a.worker now).filterMap (·.groupKey)) :
    g ∈ (Pg.commitClaim db a slots ids now clock).groups := by
  obtain ⟨g', hg', _, _, _, hsame⟩ := commitClaim_group h a slots ids now clock hg
  exact hsame hout ▸ hg'

theorem ClaimTx.Sound.allPicked {x : ClaimTx} (h : x.Sound db) {c : Claiming} {slots : List (String × GroupState)}
    (at' : x.phase = .writing c slots) : AllPicked db x.held x.args.queues c := by
  unfold ClaimTx.Sound at h
  rw [at'] at h
  exact h

/-- The jobs that a claim starts are pending. -/
theorem ClaimTx.Sound.pending (hk : Keyed db) {x : ClaimTx} (h : x.Sound db) {c : Claiming}
    {slots : List (String × GroupState)} (at' : x.phase = .writing c slots) :
    ∀ j ∈ db.jobs, j.id ∈ c.ids → j.state = .pending := by
  intro j hj hid
  obtain ⟨y, hy, hyid⟩ := List.mem_map.mp hid
  obtain ⟨j', hj', hid', hst, _⟩ := (h.allPicked at' y hy).row
  rw [← List.inj_on_of_nodup_map hk.ids hj' hj (hid'.trans hyid)]
  exact hst

/-- **A claim changes only rows it holds.** -/
theorem ClaimCommit.spares (h : Keyed db) {x : ClaimTx} {db' : Db} (hsound : x.Sound db) (hc : ClaimCommit db x db') :
    Spares (· ∈ x.held) db db' := by
  cases hc with
  | @mk c slots at' counters =>
    refine ⟨fun j hj hno => (hsound.allPicked at').jobs_spared _ _ _ _ hj hno, fun g hg hno => ?_, fun q hq hno => ?_⟩
    · exact h.groups_spared _ _ _ _ hg (fun hin => hno (counters _ (List.mem_append_left _ (List.mem_map_of_mem hin))))
    · have hout : q.name ∉ (claimedRows db c.ids x.args.worker x.now).map (·.queue) := by
        intro hin
        obtain ⟨j, hj, hjq⟩ := List.mem_map.mp hin
        refine hno (counters _ (List.mem_append_right _ (List.mem_map.mpr ⟨q, List.mem_filter.mpr ⟨hq, ?_⟩, rfl⟩)))
        exact List.any_eq_true.mpr ⟨j, hj, decide_eq_true hjq⟩
      have hrow := commitClaim_queue x.args slots c.ids x.now x.clock hq
      rwa [startedOf_queue_eq_zero (fun hin => hout (List.mem_dedup.mp hin)), Nat.cast_zero, add_zero] at hrow

end Claims

/-! ## Verdicts and recovery -/

/-- How many of the moved rows are of a row. -/
def movedOf (db : Db) (p : JobRow → Bool) (r : Row) : Nat := db.jobs.countP (fun j => p j && r.has j)

/-- Counter rows that are lowered by at most `moved`, and are left alone where that is nothing. -/
def Lowered {ρ : Type} (key : ρ → String) (count cap : ρ → ℤ) (moved : String → Nat) (rows rows' : List ρ) : Prop :=
  rows'.map key = rows.map key ∧ ∀ g ∈ rows, ∃ g' ∈ rows', key g' = key g ∧ cap g' = cap g ∧
    count g - moved (key g) ≤ count g' ∧ (moved (key g) = 0 → g' = g)

theorem Lowered.refl {ρ : Type} (key : ρ → String) (count cap : ρ → ℤ) (moved : String → Nat) (rows : List ρ) :
    Lowered key count cap moved rows rows :=
  ⟨rfl, fun g hg => ⟨g, hg, rfl, rfl, by omega, fun _ => rfl⟩⟩

theorem lowered_updateWhere {ρ : Type} {key : ρ → String} {count cap : ρ → ℤ} {moved : String → Nat} {rows : List ρ}
    {hit : ρ → Bool} {f : ρ → ρ} (hf : ∀ g, key (f g) = key g ∧ cap (f g) = cap g)
    (hhit : ∀ g, hit g → count g - moved (key g) ≤ count (f g) ∧ moved (key g) ≠ 0) :
    Lowered key count cap moved rows (updateWhere hit f rows) := by
  refine ⟨map_updateWhere (fun g => (hf g).1) rows, fun g hg => ⟨_, mem_updateWhere_of_mem hg, ?_⟩⟩
  split
  · next hh => exact ⟨(hf g).1, (hf g).2, (hhit g hh).1, fun h0 => absurd h0 (hhit g hh).2⟩
  · exact ⟨rfl, rfl, by omega, fun _ => rfl⟩

/-- Running jobs end and their counters are lowered. -/
structure Released (p : JobRow → Bool) (f : JobRow → JobRow) (db db' : Db) : Prop where
  jobs : db'.jobs = updateWhere p f db.jobs
  nextJob : db'.nextJob = db.nextJob
  groups : Lowered (·.key) (·.runningCount) (·.maxConcurrency) (fun k => movedOf db p (.group k)) db.groups db'.groups
  queues : Lowered (·.name) (·.runningCount) (·.maxConcurrency) (fun n => movedOf db p (.queue n)) db.queues db'.queues

section Released

variable {db db₁ db' : Db} {p : JobRow → Bool} {f : JobRow → JobRow} {now : ℤ}

theorem Released.slots (h : Released p f db db') {count cap : ℤ} {r : Row} (hs : db.Slots count cap r) :
    ∃ count', db'.Slots count' cap r ∧ count - movedOf db p r ≤ count' := by
  cases r with
  | job id => exact hs.elim
  | group k =>
    obtain ⟨g, hg, rfl, rfl, rfl⟩ := hs
    obtain ⟨g', hg', hkey, hcap, hle, _⟩ := h.groups.2 g hg
    exact ⟨g'.runningCount, ⟨g', hg', hkey, rfl, hcap⟩, hle⟩
  | queue n =>
    obtain ⟨q, hq, rfl, rfl, rfl⟩ := hs
    obtain ⟨q', hq', hname, hcap, hle, _⟩ := h.queues.2 q hq
    exact ⟨q'.runningCount, ⟨q', hq', hname, rfl, hcap⟩, hle⟩

theorem Released.runsAt (h : Released p f db db') (hp : ∀ j, p j → j.running) (hf : ∀ j, (f j).running = false) (r : Row) :
    db'.runsAt r + movedOf db p r = db.runsAt r := by
  rw [Db.runsAt, h.jobs]
  exact countP_release hp hf (fun _ => rfl)

theorem Released.keyed (h : Released p f db db') (hid : ∀ j, (f j).id = j.id) (hk : Keyed db) : Keyed db' := by
  refine ⟨?_, fun j hj => ?_, ?_, ?_⟩
  · rw [h.jobs, map_updateWhere hid]
    exact hk.ids
  · rw [h.jobs] at hj
    rw [h.nextJob]
    obtain ⟨j₀, hj₀, rfl⟩ := mem_updateWhere.mp hj
    split
    · rw [hid]
      exact hk.fresh j₀ hj₀
    · exact hk.fresh j₀ hj₀
  · rw [h.groups.1]
    exact hk.groups
  · rw [h.queues.1]
    exact hk.queues

/-- Rows with no moved job are left alone. -/
theorem Released.spares (h : Released p f db db') {own : Row → Prop} (hjobs : ∀ j ∈ db.jobs, p j → own (.job j.id))
    (hgroups : ∀ j ∈ db.jobs, p j → ∀ k, j.groupKey = some k → own (.group k))
    (hqueues : ∀ j ∈ db.jobs, p j → ∀ q ∈ db.queues, j.queue = q.name → own (.queue q.name)) : Spares own db db' := by
  refine ⟨fun j hj hno => ?_, fun g hg hno => ?_, fun q hq hno => ?_⟩
  · have hkeep := mem_updateWhere_of_mem (p := p) (f := f) hj
    have hout : ¬ p j = true := fun hpj => hno (hjobs j hj hpj)
    rw [if_neg hout] at hkeep
    rwa [h.jobs]
  · obtain ⟨g', hg', _, _, _, hsame⟩ := h.groups.2 g hg
    have hnone : movedOf db p (.group g.key) = 0 := by
      refine List.countP_eq_zero.mpr (fun j hj hhit => ?_)
      rw [Bool.and_eq_true] at hhit
      exact hno (hgroups j hj hhit.1 g.key (of_decide_eq_true hhit.2))
    exact hsame hnone ▸ hg'
  · obtain ⟨q', hq', _, _, _, hsame⟩ := h.queues.2 q hq
    have hnone : movedOf db p (.queue q.name) = 0 := by
      refine List.countP_eq_zero.mpr (fun j hj hhit => ?_)
      rw [Bool.and_eq_true] at hhit
      exact hno (hqueues j hj hhit.1 q hq (of_decide_eq_true hhit.2))
    exact hsame hnone ▸ hq'

/-- The decrements of a verdict, for the one row it moved. -/
theorem released_dropSlots (hk : Keyed db) {id : JobId} (hid : ∀ j, p j → j.id = id) {j : JobRow}
    (hj : db.jobs.find? p = some j) (f : JobRow → JobRow) :
    Released p f db (dropSlots { db with jobs := updateWhere p f db.jobs } j.groupKey j.queue) := by
  have hmoved : ∀ r : Row, movedOf db p r = if r.has j then 1 else 0 := fun r => countP_of_find hid hk.ids hj _
  have hqueues : Lowered (·.name) (·.runningCount) (·.maxConcurrency) (fun n => movedOf db p (.queue n)) db.queues
      (updateWhere (fun q => q.name = j.queue) (fun q => { q with runningCount := max (q.runningCount - 1) 0 }) db.queues) := by
    refine lowered_updateWhere (fun q => ⟨rfl, rfl⟩) (fun q hhit => ?_)
    have hone : movedOf db p (.queue q.name) = 1 := by
      rw [hmoved]
      simp [Row.has, of_decide_eq_true hhit]
    rw [hone]
    exact ⟨le_max_left _ _, one_ne_zero⟩
  cases hg : j.groupKey with
  | none => exact ⟨rfl, rfl, .refl .., hqueues⟩
  | some k =>
    refine ⟨rfl, rfl, lowered_updateWhere (fun g => ⟨rfl, rfl⟩) (fun g hhit => ?_), hqueues⟩
    have hone : movedOf db p (.group g.key) = 1 := by
      rw [hmoved]
      simp [Row.has, hg, of_decide_eq_true hhit]
    rw [hone]
    exact ⟨le_max_left _ _, one_ne_zero⟩

/-- The aggregated decrements of a recovery. -/
theorem released_sweep (hm : Moves f) : Released p f db { db with
    jobs := updateWhere p f db.jobs
    groups := dropGroups ((db.jobs.filter p).map f) db.groups
    queues := dropQueues ((db.jobs.filter p).map f) db.queues } := by
  refine ⟨rfl, rfl, lowered_updateWhere (fun g => ⟨rfl, rfl⟩) (fun g hhit => ?_),
    lowered_updateWhere (fun q => ⟨rfl, rfl⟩) (fun q hhit => ?_)⟩
  · have hcount : ((db.jobs.filter p).map f).countP (·.groupKey = some g.key) = movedOf db p (.group g.key) := by
      rw [List.countP_map, countP_filter_eq, movedOf]
      exact List.countP_congr (fun j _ => by simp [hm.groupKey, Row.has])
    rw [← hcount]
    refine ⟨le_max_left _ _, fun h0 => ?_⟩
    obtain ⟨j, hj, hjk⟩ := List.any_eq_true.mp hhit
    exact List.countP_eq_zero.mp h0 j hj hjk
  · have hcount : ((db.jobs.filter p).map f).countP (·.queue = q.name) = movedOf db p (.queue q.name) := by
      rw [List.countP_map, countP_filter_eq, movedOf]
      exact List.countP_congr (fun j _ => by simp [hm.queue, Row.has])
    rw [← hcount]
    refine ⟨le_max_left _ _, fun h0 => ?_⟩
    obtain ⟨j, hj, hjk⟩ := List.any_eq_true.mp hhit
    exact List.countP_eq_zero.mp h0 j hj hjk

/-! ### Rows that are added -/

theorem Grow.spares (h : Grow db db') (own : Row → Prop) : Spares own db db' := by
  cases h with
  | insert hi =>
    cases hi with
    | row => exact ⟨fun j hj _ => List.mem_append_left _ hj, fun g hg _ => hg, fun q hq _ => hq⟩
    | skip => exact ⟨fun j hj _ => hj, fun g hg _ => hg, fun q hq _ => hq⟩
  | materialize hm =>
    cases hm with
    | same => exact ⟨fun j hj _ => hj, fun g hg _ => hg, fun q hq _ => hq⟩
    | row g => exact ⟨fun j hj _ => hj, fun g hg _ => List.mem_append_left _ hg, fun q hq _ => hq⟩
  | batches => exact ⟨fun j hj _ => hj, fun g hg _ => hg, fun q hq _ => hq⟩

theorem Grow.runsAt (h : Grow db db') (r : Row) : db'.runsAt r = db.runsAt r := by
  cases h with
  | insert hi =>
    cases hi with
    | row =>
      rw [Db.runsAt, Db.runsAt, List.countP_append]
      rfl
    | skip => rfl
  | materialize hm => cases hm <;> rfl
  | batches => rfl

theorem Grow.keyed (h : Grow db db') (hk : Keyed db) : Keyed db' := by
  cases h with
  | insert hi =>
    cases hi with
    | row =>
      refine ⟨?_, fun j hj => ?_, hk.groups, hk.queues⟩
      · rw [List.map_append, List.map_singleton, List.nodup_append']
        refine ⟨hk.ids, List.nodup_singleton _, fun i hi hi' => ?_⟩
        obtain ⟨j, hj, rfl⟩ := List.mem_map.mp hi
        have heq : j.id = db.nextJob := List.mem_singleton.mp hi'
        exact absurd (hk.fresh j hj) (heq ▸ Nat.lt_irrefl _)
      · rcases List.mem_append.mp hj with hj | hj
        · exact Nat.lt_succ_of_lt (hk.fresh j hj)
        · rw [List.mem_singleton.mp hj]
          exact Nat.lt_succ_self _
    | skip => exact ⟨hk.ids, fun j hj => Nat.lt_succ_of_lt (hk.fresh j hj), hk.groups, hk.queues⟩
  | materialize hm =>
    cases hm with
    | same => exact hk
    | row g hkey count new =>
      refine ⟨hk.ids, hk.fresh, ?_, hk.queues⟩
      rw [List.map_append, List.map_singleton, List.nodup_append']
      refine ⟨hk.groups, List.nodup_singleton _, fun k hk hk' => ?_⟩
      obtain ⟨g', hg', rfl⟩ := List.mem_map.mp hk
      exact new g' hg' ((List.mem_singleton.mp hk').trans hkey)
  | batches => exact ⟨hk.ids, hk.fresh, hk.groups, hk.queues⟩

/-- Any number of rows more. -/
theorem Grows.frame (h : Grows db db') (hk : Keyed db) :
    Keyed db' ∧ (∀ own, Spares own db db') ∧ ∀ r, db'.runsAt r = db.runsAt r := by
  induction h with
  | refl => exact ⟨hk, fun _ => ⟨fun j hj _ => hj, fun g hg _ => hg, fun q hq _ => hq⟩, fun _ => rfl⟩
  | tail _ hs ih =>
    exact ⟨hs.keyed ih.1, fun own => (ih.2.1 own).trans (hs.spares own), fun r => (hs.runsAt r).trans (ih.2.2 r)⟩

end Released

/-- The jobs a transaction has taken are rows it holds, as its update found them. -/
def SettleTx.Sound (db : Db) (x : SettleTx) : Prop :=
  ∀ i ∈ x.jobs, .job i ∈ x.held ∧ ∃ j ∈ db.jobs, j.id = i ∧ x.kind.hits j

section Settling

variable {db db' : Db} {x x' : SettleTx} {free own : Row → Prop}

theorem SettleStmt.sound (h : x.Sound db) (hs : SettleStmt free db x x') : x'.Sound db := by
  cases hs with
  | @take j mem hit hfree =>
    intro i hi
    rcases List.mem_append.mp hi with hi | hi
    · exact ⟨List.mem_append_left _ (h i hi).1, (h i hi).2⟩
    · rw [List.mem_singleton.mp hi]
      exact ⟨List.mem_append_right _ (List.mem_singleton_self _), j, mem, rfl, hit⟩
  | lockCounter hr hfree => exact fun i hi => ⟨List.mem_append_left _ (h i hi).1, (h i hi).2⟩

theorem SettleTx.Sound.spared (h : x.Sound db) (hs : Spares own db db') (ho : ∀ r ∈ x.held, ¬ own r) : x.Sound db' := by
  intro i hi
  obtain ⟨hheld, j, hj, hid, hhit⟩ := h i hi
  exact ⟨hheld, j, hs.jobs j hj (hid ▸ ho _ hheld), hid, hhit⟩

/-- What a commit has done: it ended running jobs that it had taken, and then added rows. -/
structure Settled (db : Db) (x : SettleTx) (p : JobRow → Bool) (f : JobRow → JobRow) (db₁ db' : Db) : Prop where
  released : Released p f db db₁
  grows : Grows db₁ db'
  running : ∀ j, p j → j.running
  ended : ∀ j, (f j).running = false
  ids : ∀ j, (f j).id = j.id
  taken : ∀ j ∈ db.jobs, p j → j.id ∈ x.jobs

/-- The job of a verdict was taken. -/
theorem SettleTx.Sound.leased (h : x.Sound db) (hsome : x.jobs ≠ []) {id : JobId} {w : WorkerId}
    (hhits : ∀ j, x.kind.hits j = j.leasedTo id w) :
    id ∈ x.jobs ∧ ∃ j, db.jobs.find? (·.leasedTo id w) = some j := by
  obtain ⟨i, hi⟩ := List.exists_mem_of_ne_nil _ hsome
  obtain ⟨_, j, hj, rfl, hhit⟩ := h i hi
  rw [hhits] at hhit
  refine ⟨leasedTo_id j hhit ▸ hi, ?_⟩
  cases hfind : db.jobs.find? (·.leasedTo id w) with
  | none => exact absurd hhit (List.find?_eq_none.mp hfind j hj)
  | some j' => exact ⟨j', rfl⟩

/-- A recovery of the jobs that were taken. -/
theorem settled_recover {error : Json} {now : ℤ} (hw : (recover db (fun j => j.id ∈ x.jobs) error now).map Prod.fst = .ok db') :
    ∃ p f db₁, Settled db x p f db₁ db' := by
  obtain ⟨⟨db₂, n⟩, hrec, rfl⟩ := map_eq_ok hw
  unfold Pg.recover at hrec
  dsimp only at hrec
  obtain ⟨db₁, hu, hrec⟩ := bind_eq_ok hrec
  obtain ⟨db₃, hfire, hrec⟩ := bind_eq_ok hrec
  cases hrec
  refine ⟨_, _, _, released_sweep (moves_recover error now), (updateBatches_grows hu).trans (fireAll_grows hfire), ?_,
    recover_not_running error now, fun _ => rfl, ?_⟩
  · intro j hj
    exact (Bool.and_eq_true _ _ ▸ hj).1
  · intro j _ hj
    exact of_decide_eq_true (Bool.and_eq_true _ _ ▸ hj).2

/-- **What a verdict or a recovery commits.** -/
theorem SettleCommit.settled (hk : Keyed db) (h : x.Sound db) (hc : SettleCommit db x db') :
    ∃ p f db₁, Settled db x p f db₁ db' := by
  obtain ⟨hsome, _, hw⟩ := hc
  cases hkind : x.kind with
  | completed id w result now =>
    have hhits : ∀ j, x.kind.hits j = j.leasedTo id w := fun j => by rw [hkind]; rfl
    obtain ⟨hid, j, hj⟩ := h.leased hsome hhits
    rw [hkind] at hw
    simp only [Settle.write, markCompleted, hj] at hw
    exact ⟨_, _, _, released_dropSlots hk leasedTo_id hj _, settleBatch_grows hw, leasedTo_running, fun _ => rfl,
      fun _ => rfl, fun j _ hp => leasedTo_id j hp ▸ hid⟩
  | failed id w error retryAt now =>
    have hhits : ∀ j, x.kind.hits j = j.leasedTo id w := fun j => by rw [hkind]; rfl
    obtain ⟨hid, j, hj⟩ := h.leased hsome hhits
    rw [hkind] at hw
    cases retryAt with
    | none =>
      simp only [Settle.write, markFailed, hj] at hw
      exact ⟨_, _, _, released_dropSlots hk leasedTo_id hj _, settleBatch_grows hw, leasedTo_running, fun _ => rfl,
        fun _ => rfl, fun j _ hp => leasedTo_id j hp ▸ hid⟩
    | some t =>
      simp only [Settle.write, markFailed, hj] at hw
      cases hw
      exact ⟨_, _, _, released_dropSlots hk leasedTo_id hj _, .refl, leasedTo_running, fun _ => rfl, fun _ => rfl,
        fun j _ hp => leasedTo_id j hp ▸ hid⟩
  | sweepStale secs now =>
    rw [hkind] at hw
    exact settled_recover hw
  | reclaimInFlight ids now =>
    rw [hkind] at hw
    exact settled_recover hw

/-- **It changes only rows it holds.** -/
theorem SettleCommit.spares (hk : Keyed db) (h : x.Sound db) (hc : SettleCommit db x db') :
    Spares (· ∈ x.held) db db' := by
  obtain ⟨p, f, db₁, hs⟩ := hc.settled hk h
  obtain ⟨_, hcounters, _⟩ := hc
  have htaken : ∀ j ∈ db.jobs, p j → j ∈ x.rows db := fun j hj hp =>
    List.mem_filter.mpr ⟨hj, decide_eq_true (hs.taken j hj hp)⟩
  refine (hs.released.spares (fun j hj hp => (h _ (hs.taken j hj hp)).1) (fun j hj hp k hk => ?_)
    (fun j hj hp q hq he => ?_)).trans ((hs.grows.frame (hs.released.keyed hs.ids hk)).2.1 _)
  · exact hcounters _ (List.mem_append_left _ (List.mem_map_of_mem (List.mem_filterMap.mpr ⟨j, htaken j hj hp, hk⟩)))
  · refine hcounters _ (List.mem_append_right _ (List.mem_map.mpr ⟨q, List.mem_filter.mpr ⟨hq, ?_⟩, rfl⟩))
    exact List.any_eq_true.mpr ⟨j, htaken j hj hp, decide_eq_true he⟩

end Settling

end Eddyq.Pg
