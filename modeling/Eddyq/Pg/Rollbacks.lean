import Eddyq.Pg.MigrateRuns
import Mathlib.Data.List.Sort

/-!
# Rollbacks

The whole life of a database under the migration runner: stretches of concurrent calls of `migrate::up`, calls of
`migrate::down` between them, and `migrate::status`; every call may fail at every point, and a commit may be done although its
reply is lost.

What has run of the SQL of a line is kept as a log, and `replay` reads it as pushes and pops. A line is `Stacked` when the log
replays to a prefix of the registry and this prefix is what is recorded. Calls of `up` push along the registry
(`Stacked.ups`), `down` pops (`stacked_down`), so that every database has it (`Database.Reached.stacked`).
-/

namespace Eddyq.Pg.Migrate

open Lib

/-! ## The code -/

/-- `Direction`. -/
inductive Direction
  | up
  | down
  deriving DecidableEq

/-- `_eddyq_migrations`, and for each line the SQL that has been committed for it, oldest first. -/
structure Database where
  table : Table
  sql : String → List (Direction × ℤ)

/-- A call of the database in `down`. -/
inductive DownCall
  | ensureTable
  | readApplied
  | beginTx (m : Migration)
  | downSql (m : Migration)
  | delete (m : Migration)
  | commit (m : Migration)
  deriving DecidableEq

/-- What becomes of a call. A lost one is done and its reply is an error. -/
inductive Fate
  | done
  | failed
  | lost
  deriving DecidableEq

/-- `ensure_tracking_table_pool`. -/
def Database.ensure (d : Database) : Database := { d with table := d.table.ensure }

/-- `list_applied`. -/
def Database.listApplied (d : Database) (line : String) : List ℤ := (d.table.versions line).mergeSort (· ≤ ·)

/-- `DELETE FROM _eddyq_migrations`. -/
def Table.delete (line : String) (version : ℤ) : Table → Table
  | .lined rows => .lined (rows.filter (· ≠ (line, version)))
  | t => t

/-- A transaction of `down` that is committed. -/
def Database.rollBack (line : String) (m : Migration) (d : Database) : Database where
  table := d.table.delete line m.version
  sql := Function.update d.sql line (d.sql line ++ [(.down, m.version)])

section Code

variable (registry : List Migration) (fate : DownCall → Fate) (line : String)

/-- The loop of `down`. -/
def rollBacks : List ℤ → Database → Report → Database × Except DownCall Report
  | [], d, report => (d, .ok report)
  | v :: rows, d, report =>
    match registry.find? (·.version = v) with
    | none => rollBacks rows d report
    | some m =>
      if fate (.beginTx m) ≠ .done then (d, .error (.beginTx m))
      else if fate (.downSql m) ≠ .done then (d, .error (.downSql m))
      else if fate (.delete m) ≠ .done then (d, .error (.delete m))
      else match fate (.commit m) with
        | .done => rollBacks rows (d.rollBack line m) (report ++ [(m.version, m.name)])
        | .failed => (d, .error (.commit m))
        | .lost => (d.rollBack line m, .error (.commit m))

/-- `down`. -/
def down (maxSteps : ℕ) (d : Database) : Database × Except DownCall Report :=
  match fate .ensureTable with
  | .failed => (d, .error .ensureTable)
  | .lost => (d.ensure, .error .ensureTable)
  | .done =>
    if fate .readApplied ≠ .done then (d.ensure, .error .readApplied)
    else rollBacks registry fate line (((d.ensure.listApplied line).mergeSort (· ≥ ·)).take maxSteps) d.ensure []

/-- `status`, with the versions that have an `applied_at`. -/
def status (d : Database) : List (ℤ × String × Bool) :=
  registry.map fun m => (m.version, m.name, decide (m.version ∈ d.listApplied line))

/-- What happens to a database: a stretch of calls of `up` from their start on, a call of `down`, and a call that only reads. -/
inductive Database.Step : Database → Database → Prop
  | ups {ι : Type} [DecidableEq ι] {lines : ι → String} {w₀ w : World ι} {as : List (Action ι)} {d : Database} (fresh : w₀.Fresh)
      (table : w₀.table = d.table) (run : Run (Migrate.Step registry lines) w₀ as w) :
      Step d { table := w.table, sql := fun line => d.sql line ++ (w.committed lines line).map (Direction.up, ·) }
  | down {d : Database} (fate : DownCall → Fate) (line : String) (maxSteps : ℕ) : Step d (down registry fate line maxSteps d).1
  | read {d : Database} : Step d d.ensure

end Code

/-! ## The log -/

/-- What is on top after the SQL, newest first: a rollback takes back what is there. -/
def replay : List (Direction × ℤ) → List ℤ → Option (List ℤ)
  | [], stack => some stack
  | (.up, v) :: sql, stack => replay sql (v :: stack)
  | (.down, v) :: sql, top :: stack => if top = v then replay sql stack else none
  | (.down, _) :: _, [] => none

theorem replay_append : ∀ (sql sql' : List (Direction × ℤ)) (stack : List ℤ),
    replay (sql ++ sql') stack = (replay sql stack).bind (replay sql')
  | [], _, _ => rfl
  | (.up, v) :: sql, sql', stack => replay_append sql sql' (v :: stack)
  | (.down, v) :: sql, sql', [] => rfl
  | (.down, v) :: sql, sql', top :: stack => by
    simp only [List.cons_append, replay]
    split
    · exact replay_append sql sql' stack
    · rfl

theorem replay_ups : ∀ (vs stack : List ℤ), replay (vs.map (Direction.up, ·)) stack = some (vs.reverse ++ stack)
  | [], _ => rfl
  | v :: vs, stack => by
    rw [List.map_cons, replay, replay_ups vs (v :: stack), List.reverse_cons, List.append_assoc]
    rfl

/-- **A line in order**: its log replays to `stack`, these are the first migrations of the registry, newest first, and they are
what is recorded. -/
structure Database.Stacked (registry : List Migration) (d : Database) (line : String) (stack : List Migration) : Prop where
  todo : ∃ todo, registry = stack.reverse ++ todo
  recorded : (d.table.versions line).Perm (stack.map (·.version))
  sql : replay (d.sql line) [] = some (stack.map (·.version))

/-! ## Rollbacks -/

section Down

variable {registry : List Migration} {fate : DownCall → Fate} {line : String} {d : Database}

theorem versions_delete (t : Table) (line line' : String) (v : ℤ) : (t.ensure.delete line v).versions line' =
    if line = line' then (t.versions line').filter (· ≠ v) else t.versions line' := by
  obtain ⟨rows, hrows⟩ : ∃ rows, t.ensure = .lined rows := by cases t <;> exact ⟨_, rfl⟩
  rw [← versions_ensure t line', hrows]
  simp only [Table.delete, Table.versions, List.filter_filter]
  split
  · next h =>
    subst h
    rw [List.filter_map, List.filter_filter]
    congr 1
    refine List.filter_congr fun p _ => ?_
    obtain ⟨l, u⟩ := p
    by_cases hl : l = line <;> simp [hl]
  · next h =>
    congr 1
    refine List.filter_congr fun p _ => ?_
    obtain ⟨l, u⟩ := p
    by_cases hl : l = line' <;> simp [hl, Ne.symm h]

theorem Database.Stacked.ensure {stack : List Migration} (h : d.Stacked registry line stack) :
    d.ensure.Stacked registry line stack :=
  ⟨h.todo, (versions_ensure d.table line).symm ▸ h.recorded, h.sql⟩

/-- The newest one is rolled back. -/
theorem Database.Stacked.pop {m : Migration} {stack : List Migration} (h : d.Stacked registry line (m :: stack))
    (hnd : (registry.map (·.version)).Nodup) (hd : d.ensure = d) : (d.rollBack line m).Stacked registry line stack := by
  obtain ⟨⟨todo, htodo⟩, hrec, hsql⟩ := h
  have htable : d.table.ensure = d.table := congrArg Database.table hd
  refine ⟨⟨m :: todo, ?_⟩, ?_, ?_⟩
  · rw [htodo, List.reverse_cons, List.append_assoc]
    rfl
  · have hm : m.version ∉ stack.map (·.version) := by
      rw [htodo] at hnd
      have := hnd.sublist ((List.sublist_append_left _ todo).map _)
      rw [List.map_reverse, List.nodup_reverse] at this
      exact (List.nodup_cons.mp this).1
    have hdel := versions_delete d.table line line m.version
    rw [htable, if_pos rfl] at hdel
    rw [Database.rollBack]
    dsimp only
    rw [hdel]
    refine (hrec.filter _).trans ?_
    rw [List.map_cons, List.filter_cons_of_neg (by simp), List.filter_eq_self.mpr]
    intro v hv
    exact decide_eq_true fun he => hm (he ▸ hv)
  · rw [Database.rollBack]
    dsimp only
    rw [Function.update_self, replay_append, hsql]
    simp [replay]

/-- The other lines are left alone. -/
theorem Database.Stacked.rollBack_other {line' : String} {m : Migration} {stack : List Migration} (hne : line ≠ line')
    (h : d.Stacked registry line' stack) (hd : d.ensure = d) : (d.rollBack line m).Stacked registry line' stack := by
  have htable : d.table.ensure = d.table := congrArg Database.table hd
  have hdel := versions_delete d.table line line' m.version
  rw [htable, if_neg hne] at hdel
  refine ⟨h.todo, ?_, ?_⟩
  · rw [Database.rollBack]
    dsimp only
    rw [hdel]
    exact h.recorded
  · rw [Database.rollBack]
    dsimp only
    rw [Function.update_of_ne (Ne.symm hne)]
    exact h.sql

theorem ensure_rollBack {m : Migration} (hd : d.ensure = d) : (d.rollBack line m).ensure = d.rollBack line m := by
  obtain ⟨table, sql⟩ := d
  cases table with
  | missing => exact absurd (congrArg Database.table hd) (by rintro ⟨⟩)
  | preLines versions => exact absurd (congrArg Database.table hd) (by rintro ⟨⟩)
  | lined rows => rfl

theorem ensure_ensure (d : Database) : d.ensure.ensure = d.ensure := by
  obtain ⟨table, sql⟩ := d
  cases table <;> rfl

/-- A version of the registry is found. -/
theorem find_version (hnd : (registry.map (·.version)).Nodup) {m : Migration} (hm : m ∈ registry) :
    registry.find? (·.version = m.version) = some m := by
  obtain ⟨u, hu⟩ : ∃ u, registry.find? (·.version = m.version) = some u :=
    Option.isSome_iff_exists.mp (List.find?_isSome.mpr ⟨m, hm, decide_eq_true rfl⟩)
  have hmem := List.mem_of_find?_eq_some hu
  have hver : u.version = m.version := by simpa using List.find?_some hu
  rw [hu, List.inj_on_of_nodup_map hnd hmem hm hver]

/-- What a loop over the newest versions leaves, and what it says. -/
structure RolledBack (registry : List Migration) (line : String) (stack : List Migration) (k : ℕ) (before : Report)
    (r : Database × Except DownCall Report) : Prop where
  ok : ∀ report, r.2 = .ok report →
    report = before ++ (stack.take k).map (fun m => (m.version, m.name)) ∧ r.1.Stacked registry line (stack.drop k)
  error : ∀ e, r.2 = .error e → ∃ j ≤ k, r.1.Stacked registry line (stack.drop j)

/-- A call of a transaction that is not committed. -/
theorem RolledBack.failed {stack : List Migration} {k : ℕ} {before : Report} {e : DownCall} (h : d.Stacked registry line stack) :
    RolledBack registry line stack k before (d, .error e) where
  ok _ hr := by cases hr
  error _ _ := ⟨0, Nat.zero_le k, h⟩

theorem rollBacks_stacked (hnd : (registry.map (·.version)).Nodup) : ∀ (k : ℕ) (stack : List Migration) (d : Database)
    (before : Report), d.Stacked registry line stack → d.ensure = d →
      RolledBack registry line stack k before (rollBacks registry fate line ((stack.map (·.version)).take k) d before)
  | 0, stack, d, before, h, _ => ⟨by rintro _ ⟨⟩; exact ⟨by simp, h⟩, by rintro _ ⟨⟩⟩
  | k + 1, [], d, before, h, _ => ⟨by rintro _ ⟨⟩; exact ⟨by simp, h⟩, by rintro _ ⟨⟩⟩
  | k + 1, m :: stack, d, before, h, hd => by
    have hm : m ∈ registry := by
      obtain ⟨todo, htodo⟩ := h.todo
      rw [htodo]
      simp
    rw [List.map_cons, List.take_succ_cons, rollBacks, find_version hnd hm]
    dsimp only
    by_cases hbegin : fate (.beginTx m) = .done
    swap
    · rw [if_pos hbegin]
      exact .failed h
    by_cases hdown : fate (.downSql m) = .done
    swap
    · rw [if_neg (not_not.mpr hbegin), if_pos hdown]
      exact .failed h
    by_cases hdelete : fate (.delete m) = .done
    swap
    · rw [if_neg (not_not.mpr hbegin), if_neg (not_not.mpr hdown), if_pos hdelete]
      exact .failed h
    rw [if_neg (not_not.mpr hbegin), if_neg (not_not.mpr hdown), if_neg (not_not.mpr hdelete)]
    cases hcommit : fate (.commit m) with
    | failed => exact .failed h
    | lost => exact ⟨by rintro _ ⟨⟩, fun _ _ => ⟨1, Nat.succ_le_succ (Nat.zero_le k), h.pop hnd hd⟩⟩
    | done =>
      obtain ⟨hok, herror⟩ := rollBacks_stacked hnd k stack _ (before ++ [(m.version, m.name)]) (h.pop hnd hd) (ensure_rollBack hd)
      refine ⟨fun report hr => ?_, fun e hr => ?_⟩
      · obtain ⟨hreport, hst⟩ := hok report hr
        refine ⟨?_, hst⟩
        rw [hreport, List.append_assoc]
        rfl
      · obtain ⟨j, hj, hst⟩ := herror e hr
        exact ⟨j + 1, Nat.succ_le_succ hj, hst⟩

theorem rollBacks_other {line' : String} (hne : line ≠ line') {stack : List Migration} : ∀ (rows : List ℤ) (d : Database)
    (before : Report), d.Stacked registry line' stack → d.ensure = d →
      (rollBacks registry fate line rows d before).1.Stacked registry line' stack
  | [], _, _, h, _ => h
  | v :: rows, d, before, h, hd => by
    rw [rollBacks]
    split
    · exact rollBacks_other hne rows d before h hd
    · next m _ =>
      split_ifs
      · exact h
      · exact h
      · exact h
      · split
        · exact rollBacks_other hne rows _ _ (h.rollBack_other hne hd) (ensure_rollBack hd)
        · exact h
        · exact h.rollBack_other hne hd

/-- What `down` goes through. -/
theorem listApplied_reverse (hs : (registry.map (·.version)).Pairwise (· < ·)) {stack : List Migration}
    (h : d.Stacked registry line stack) : (d.listApplied line).mergeSort (· ≥ ·) = stack.map (·.version) := by
  obtain ⟨⟨todo, htodo⟩, hrec, -⟩ := h
  have hperm : ((d.listApplied line).mergeSort (· ≥ ·)).Perm (stack.map (·.version)) :=
    ((List.mergeSort_perm _ _).trans (List.mergeSort_perm _ _)).trans hrec
  refine hperm.eq_of_pairwise' (r := (· ≥ ·)) (List.pairwise_mergeSort' (· ≥ ·) _) ?_
  rw [htodo, List.map_append, List.map_reverse] at hs
  have := (List.pairwise_append.mp hs).1
  rw [List.pairwise_reverse] at this
  exact this.imp fun hlt => hlt.le

/-- **`down`** rolls the newest ones back, and on an error some of them. -/
theorem stacked_down (hs : (registry.map (·.version)).Pairwise (· < ·)) {stack : List Migration} (h : d.Stacked registry line stack)
    (k : ℕ) : RolledBack registry line stack k [] (down registry fate line k d) := by
  have hnd : (registry.map (·.version)).Nodup := hs.imp fun hlt => hlt.ne
  rw [down]
  split
  · exact .failed h
  · exact .failed h.ensure
  · split_ifs
    · exact .failed h.ensure
    · rw [listApplied_reverse hs h.ensure]
      exact rollBacks_stacked hnd k stack d.ensure [] h.ensure (ensure_ensure d)

theorem down_other {line' : String} (hne : line ≠ line') {stack : List Migration} (h : d.Stacked registry line' stack) (k : ℕ) :
    (down registry fate line k d).1.Stacked registry line' stack := by
  rw [down]
  split
  · exact h
  · exact h.ensure
  · split_ifs
    · exact h.ensure
    · exact rollBacks_other hne _ _ _ h.ensure (ensure_ensure d)

end Down

/-! ## Stretches of migrations -/

section Ups

variable {ι : Type} [DecidableEq ι] {registry : List Migration} {lines : ι → String} {first : String → List ℤ} {w : World ι}
  {line : String}

/-- Calls of `up` keep a prefix. -/
theorem Inv.isPrefix (h : Inv registry lines first w) (hnd : (registry.map (·.version)).Nodup)
    (hfirst : IsPrefix registry (first line)) : IsPrefix registry (w.table.versions line) := by
  have hrows := h.rows line
  have hregistry : ∀ v ∈ w.table.versions line, v ∈ registry.map (·.version) := by
    obtain ⟨done, rest, hsplit, hmem⟩ := hfirst
    intro v hv
    rw [hrows] at hv
    rcases List.mem_append.mp hv with hv | hv
    · rw [hsplit, List.map_append]
      exact List.mem_append_left _ ((hmem v).mp hv)
    · exact (h.order line).subset hv
  refine isPrefix_of_closed hregistry (fun before m todo heq hm => ?_) registry [] rfl fun _ hu => absurd hu List.not_mem_nil
  rw [hrows] at hm
  rcases List.mem_append.mp hm with hm | hm
  · intro u hu
    rw [hrows]
    exact List.mem_append_left _ (hfirst.closed hnd heq hm u hu)
  · exact h.closed line before m todo heq hm

/-- Of two prefixes, the one whose versions the other has comes first. -/
theorem prefix_of_versions {done done' todo todo' : List Migration} (hnd : (registry.map (·.version)).Nodup)
    (h : registry = done ++ todo) (h' : registry = done' ++ todo') (hsub : ∀ u ∈ done, u.version ∈ done'.map (·.version)) :
    done <+: done' := by
  rcases List.prefix_or_prefix_of_prefix (h ▸ List.prefix_append done todo) (h' ▸ List.prefix_append done' todo') with hp | hp
  · exact hp
  · obtain ⟨rest, rfl⟩ := hp
    cases rest with
    | nil => exact ⟨[], by simp⟩
    | cons u rest =>
      exfalso
      rw [h, List.append_assoc, List.map_append] at hnd
      exact (List.nodup_append.mp hnd).2.2 _ (hsub u (by simp)) u.version (by simp) rfl

/-- **Calls of `up`** put the next ones of the registry on top. -/
theorem Database.Stacked.ups {w₀ : World ι} {as : List (Action ι)} {d : Database} (hs : (registry.map (·.version)).Pairwise (· < ·))
    (fresh : w₀.Fresh) (table : w₀.table = d.table) (run : Run (Migrate.Step registry lines) w₀ as w) {stack : List Migration}
    (h : d.Stacked registry line stack) : ∃ stack', Database.Stacked registry
      { table := w.table, sql := fun line => d.sql line ++ (w.committed lines line).map (Direction.up, ·) } line stack' := by
  obtain ⟨⟨todo, htodo⟩, hrec, hsql⟩ := h
  rw [← table] at hrec
  have hnd : (registry.map (·.version)).Nodup := hs.imp fun hlt => hlt.ne
  have hinv : Inv registry lines (fun line => w₀.table.versions line) w := run.inv fresh.inv fun _ _ _ hi hs => hi.step hnd hs
  have hpre : IsPrefix registry (w₀.table.versions line) := ⟨stack.reverse, todo, htodo, fun v => by
    rw [hrec.mem_iff, List.map_reverse, List.mem_reverse]⟩
  obtain ⟨done, todo', htodo', hmem⟩ := hinv.isPrefix hnd hpre
  have hrows : w.table.versions line = w₀.table.versions line ++ w.committed lines line := hinv.rows line
  have hprefix : stack.reverse <+: done := prefix_of_versions hnd htodo htodo' fun u hu => by
    rw [← hmem, hrows]
    exact List.mem_append_left _ (hrec.mem_iff.mpr (List.mem_map_of_mem (List.mem_reverse.mp hu)))
  obtain ⟨new, rfl⟩ := hprefix
  have hsorted : ((stack.reverse ++ new).map (·.version)).Pairwise (· < ·) := by
    rw [htodo', List.map_append] at hs
    exact (List.pairwise_append.mp hs).1
  have hdone : ((stack.reverse ++ new).map (·.version)).Nodup := hsorted.imp fun hlt => hlt.ne
  have hnew : (new.map (·.version)).Pairwise (· < ·) := by
    rw [List.map_append] at hsorted
    exact (List.pairwise_append.mp hsorted).2.1
  have hcommitted : w.committed lines line = new.map (·.version) := by
    refine (hs.sublist (hinv.order line)).eq_of_mem_iff hnew fun v => ?_
    have hboth := hinv.nodup line
    rw [hrows] at hboth
    have hv := hmem v
    rw [hrows, List.mem_append, hrec.mem_iff, List.map_append, List.mem_append, List.map_reverse, List.mem_reverse] at hv
    rw [List.map_append, List.map_reverse] at hdone
    constructor
    · intro hc
      rcases hv.mp (.inr hc) with hold | hn
      · exact absurd rfl ((List.nodup_append.mp hboth).2.2 v (hrec.mem_iff.mpr hold) v hc)
      · exact hn
    · intro hn
      rcases hv.mpr (.inr hn) with hold | hc
      · exact absurd rfl ((List.nodup_append.mp hdone).2.2 v (List.mem_reverse.mpr hold) v hn)
      · exact hc
  refine ⟨new.reverse ++ stack, ⟨todo', by rw [htodo']; simp⟩, ?_, ?_⟩
  · refine (List.perm_ext_iff_of_nodup (hinv.nodup line) ?_).mpr fun v => ?_
    · have hperm : (stack.reverse ++ new).Perm (new.reverse ++ stack) :=
        (List.perm_append_comm).trans ((List.reverse_perm new).symm.append (List.reverse_perm stack))
      exact (hperm.map _).nodup_iff.mp hdone
    · rw [hmem]
      simp [or_comm]
  · show replay (d.sql line ++ _) [] = _
    rw [replay_append, hsql, hcommitted, Option.bind_some, replay_ups, List.map_append, List.map_reverse]

end Ups

/-! ## The life of a database -/

/-- A database whose lines were migrated in order, or not at all. -/
def Database.Founded (d : Database) : Prop :=
  ∀ line, ∃ done todo, migrations = done ++ todo ∧ (d.table.versions line).Perm (done.map (·.version)) ∧
    d.sql line = (done.map (·.version)).map (Direction.up, ·)

def Database.Reached (d : Database) : Prop :=
  ∃ d₀ : Database, d₀.Founded ∧ Reach (fun d (_ : Unit) d' => Database.Step migrations d d') d₀ d

theorem migrations_sorted : (migrations.map (·.version)).Pairwise (· < ·) := by decide

theorem Database.Founded.stacked {d : Database} (h : d.Founded) (line : String) : ∃ stack, d.Stacked migrations line stack := by
  obtain ⟨done, todo, hsplit, hrec, hsql⟩ := h line
  refine ⟨done.reverse, ⟨todo, by rw [List.reverse_reverse, hsplit]⟩, ?_, ?_⟩
  · rw [List.map_reverse]
    exact hrec.trans (List.reverse_perm _).symm
  · rw [hsql, replay_ups, List.append_nil, List.map_reverse]

theorem Database.Step.stacked {d d' : Database} (hs : Database.Step migrations d d')
    (h : ∀ line, ∃ stack, d.Stacked migrations line stack) (line : String) : ∃ stack, d'.Stacked migrations line stack := by
  obtain ⟨stack, hst⟩ := h line
  cases hs with
  | ups fresh table run => exact hst.ups migrations_sorted fresh table run
  | down fate line' k =>
    by_cases hline : line' = line
    · subst hline
      have hback : RolledBack migrations line' stack k [] (Migrate.down migrations fate line' k d) := stacked_down migrations_sorted hst k
      obtain ⟨hok, herror⟩ := hback
      cases hr : (Migrate.down migrations fate line' k d).2 with
      | ok report => exact ⟨_, (hok report hr).2⟩
      | error e =>
        obtain ⟨j, -, hj⟩ := herror e hr
        exact ⟨_, hj⟩
    · exact ⟨stack, down_other hline hst k⟩
  | read => exact ⟨stack, hst.ensure⟩

theorem Database.Reached.stacked {d : Database} (h : d.Reached) : ∀ line, ∃ stack, d.Stacked migrations line stack := by
  obtain ⟨d₀, hd₀, hr⟩ := h
  exact hr.inv hd₀.stacked fun _ _ _ hd hs => hs.stacked hd

/-- `status` shows the two parts of the registry. -/
theorem status_stacked {d : Database} {line : String} {stack : List Migration} (h : d.Stacked migrations line stack) :
    ∃ todo, migrations = stack.reverse ++ todo ∧ status migrations line d =
      stack.reverse.map (fun m => (m.version, m.name, true)) ++ todo.map (fun m => (m.version, m.name, false)) := by
  obtain ⟨⟨todo, htodo⟩, hrec, -⟩ := h
  have hmem : ∀ v, v ∈ d.listApplied line ↔ v ∈ stack.map (·.version) := fun v =>
    ((List.mergeSort_perm _ _).trans hrec).mem_iff
  have hnd : (migrations.map (·.version)).Nodup := migrations_sorted.imp fun hlt => hlt.ne
  refine ⟨todo, htodo, ?_⟩
  rw [status, htodo, List.map_append]
  rw [htodo, List.map_append] at hnd
  congr 1
  · refine List.map_congr_left fun m hm => ?_
    rw [decide_eq_true ((hmem _).mpr (List.mem_map_of_mem (List.mem_reverse.mp hm)))]
  · refine List.map_congr_left fun m hm => ?_
    rw [decide_eq_false]
    intro hv
    rw [hmem, ← List.mem_reverse, ← List.map_reverse] at hv
    exact (List.nodup_append.mp hnd).2.2 _ hv _ (List.mem_map_of_mem hm) rfl

/-- **The life of a database**: at every moment what a line has recorded is a prefix of the registry, which is what the SQL that
has run for it, each rollback undoing the migration on top, leaves; `status` shows exactly that. A call of `down` that returns
`Ok` has rolled back the newest `maxSteps` and reports them, one that fails has rolled back the newest few, and no other line
notices. -/
theorem reached_stacked {d : Database} (h : d.Reached) (line : String) : ∃ stack todo, migrations = stack.reverse ++ todo ∧
    (d.table.versions line).Perm (stack.map (·.version)) ∧ replay (d.sql line) [] = some (stack.map (·.version)) ∧
    status migrations line d =
      stack.reverse.map (fun m => (m.version, m.name, true)) ++ todo.map (fun m => (m.version, m.name, false)) ∧
    ∀ fate maxSteps, RolledBack migrations line stack maxSteps [] (down migrations fate line maxSteps d) ∧
      ∀ line', line' ≠ line → (down migrations fate line' maxSteps d).1.Stacked migrations line stack := by
  obtain ⟨stack, hst⟩ := h.stacked line
  obtain ⟨todo, htodo, hstatus⟩ := status_stacked hst
  exact ⟨stack, todo, htodo, hst.recorded, hst.sql, hstatus, fun fate k =>
    ⟨stacked_down migrations_sorted hst k, fun _ hne => down_other hne hst k⟩⟩

/-- A database with all migrations on the default line. -/
def upToDate : Database where
  table := .lined (migrations.map fun m => (defaultLine, m.version))
  sql line := if line = defaultLine then (migrations.map (·.version)).map (Direction.up, ·) else []

theorem upToDate_founded : upToDate.Founded := by
  intro line
  by_cases h : line = defaultLine
  · subst h
    have hsql : upToDate.sql defaultLine = (migrations.map (·.version)).map (Direction.up, ·) := by
      simp only [upToDate, if_true]
    exact ⟨migrations, [], (List.append_nil _).symm, by decide, hsql⟩
  · refine ⟨[], migrations, rfl, ?_, if_neg h⟩
    have hnil : upToDate.table.versions line = [] := by
      have hne : ¬ defaultLine = line := fun he => h he.symm
      simp [upToDate, Table.versions, List.filter_map, Function.comp_def, hne]
    rw [hnil]
    exact .nil

theorem reached_stacked_upToDate : ∃ stack todo, migrations = stack.reverse ++ todo ∧
    (upToDate.table.versions "main").Perm (stack.map (·.version)) ∧
    replay (upToDate.sql "main") [] = some (stack.map (·.version)) ∧
    status migrations "main" upToDate =
      stack.reverse.map (fun m => (m.version, m.name, true)) ++ todo.map (fun m => (m.version, m.name, false)) ∧
    ∀ fate maxSteps, RolledBack migrations "main" stack maxSteps [] (down migrations fate "main" maxSteps upToDate) ∧
      ∀ line', line' ≠ "main" → (down migrations fate line' maxSteps upToDate).1.Stacked migrations "main" stack :=
  reached_stacked ⟨upToDate, upToDate_founded, Reach.refl _⟩ "main"

end Eddyq.Pg.Migrate
