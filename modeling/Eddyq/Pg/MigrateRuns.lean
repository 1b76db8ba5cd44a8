import Eddyq.Lib.Runs
import Eddyq.Pg.Migrate
import Mathlib.Data.List.Nodup

/-!
# Concurrent migrations

Any number of calls of `up`, on any lines, against one database: the tracking table with its primary key, the SQL that has been
committed, and the advisory locks of the sessions. Every call may fail, a commit may be done although its reply is lost, and a session
may end at any moment and with it its lock. The lock is not what keeps the history right: a version is inserted in the transaction of
its SQL, and the primary key admits it once (`Inv`), so that what is recorded grows along the registry in every run
(`migrations_safe`).
-/

namespace Eddyq.Pg.Migrate

open Lib

/-! ## The database -/

/-- `DEFAULT_LINE`. -/
def defaultLine : String := "main"

/-- `_eddyq_migrations`, perhaps from before there were lines. -/
inductive Table
  | missing
  | preLines (versions : List ℤ)
  | lined (rows : List (String × ℤ))

/-- `TRACKING_TABLE_DDL` and `TRACKING_TABLE_UPGRADE`. -/
def Table.ensure : Table → Table
  | .missing => .lined []
  | .preLines versions => .lined (versions.map (defaultLine, ·))
  | .lined rows => .lined rows

/-- The versions recorded for a line. -/
def Table.versions (line : String) : Table → List ℤ
  | .missing => []
  | .preLines versions => if line = defaultLine then versions else []
  | .lined rows => (rows.filter (·.1 = line)).map (·.2)

/-- `INSERT INTO _eddyq_migrations`. -/
def Table.insert (line : String) (version : ℤ) : Table → Table
  | .lined rows => .lined (rows ++ [(line, version)])
  | t => t

/-- `advisory_key`: FNV-1a over the line behind `eddyq::migrate::`. -/
def advisoryKey (line : String) : UInt64 :=
  ("eddyq::migrate::" ++ line).toUTF8.foldl (fun hash byte => (hash ^^^ byte.toUInt64) * 0x100000001B3) 0xcbf29ce484222325

/-- What a transaction has done. -/
inductive Stmt
  | ensureTable
  | upSql (m : Migration)
  | insert (m : Migration)
  deriving DecidableEq

/-- A call of `up`: where it is, the session of its connection, and its transaction. -/
structure Caller where
  pc : Pc := .acquire
  session : Option ℕ := none
  tx : List Stmt := []

/-- The database and the calls; `commits` is the SQL committed since the start, with the call that did it. -/
structure World (ι : Type) where
  table : Table
  commits : List (ι × Migration)
  locks : UInt64 → ℕ → ℕ
  ended : ℕ → Bool
  callers : ι → Caller

section World

variable {ι : Type} [DecidableEq ι] (registry : List Migration) (lines : ι → String)

/-! ## Steps -/

/-- A statement of a transaction that is committed. -/
def World.exec (i : ι) (w : World ι) : Stmt → World ι
  | .ensureTable => { w with table := w.table.ensure }
  | .upSql m => { w with commits := w.commits ++ [(i, m)] }
  | .insert m => { w with table := w.table.insert (lines i) m.version }

/-- What a call that succeeds leaves of the transaction. -/
def Call.tx : Call → List Stmt → List Stmt
  | .ensureTableTx _, tx => tx ++ [.ensureTable]
  | .upSql m, tx => tx ++ [.upSql m]
  | .insert m, tx => tx ++ [.insert m]
  | .commit _, _ => []
  | _, tx => tx

/-- What a call does to the lock of its session. -/
def World.lock (i : ι) (c : Call) (w : World ι) : World ι :=
  match (w.callers i).session with
  | none => w
  | some s =>
    let key := advisoryKey (lines i)
    { w with locks := Function.update w.locks key (Function.update (w.locks key) s (c.locks (w.locks key s))) }

/-- What a call does to the database when it succeeds. -/
def World.effect (i : ι) (w : World ι) : Call → World ι
  | .lock => w.lock lines i .lock
  | .unlock => w.lock lines i .unlock
  | .ensureTable => { w with table := w.table.ensure }
  | .commit _ => (w.callers i).tx.foldl (World.exec lines i) w
  | _ => w

/-- The caller goes on; when it returns its connection goes back to the pool. -/
def World.advance (i : ι) (tx : List Stmt) (reply : Reply) (w : World ι) : World ι :=
  let c := w.callers i
  let pc := c.pc.next registry reply
  { w with callers := Function.update w.callers i { pc, session := if pc.call = none then none else c.session, tx } }

/-- What can happen: a caller gets a connection, its call succeeds or fails, its commit is done and the reply is lost, and a session
ends. -/
inductive Action (ι : Type)
  | start (i : ι) (s : ℕ)
  | ok (i : ι)
  | fail (i : ι)
  | lost (i : ι)
  | ends (s : ℕ)

def World.alive (w : World ι) (i : ι) : Prop := ∃ s, (w.callers i).session = some s ∧ w.ended s = false

/-- When a call can succeed: the lock is granted to one session at a time, and the primary key admits a version once, also against the
transactions that are open. -/
def World.Grants (w : World ι) (i : ι) : Call → Prop
  | .acquire => False
  | .lock => w.alive i ∧ ∀ s, (w.callers i).session ≠ some s → w.locks (advisoryKey (lines i)) s = 0
  | .readApplied | .unlock => w.alive i
  | .insert m => m.version ∉ w.table.versions (lines i) ∧
      ∀ j, j ≠ i → lines j = lines i → ∀ m', Stmt.insert m' ∈ (w.callers j).tx → m.version ≠ m'.version
  | _ => True

def Action.Enabled (w : World ι) : Action ι → Prop
  | .start i s => (w.callers i).pc = .acquire ∧ w.ended s = false ∧ ∀ j, (w.callers j).session ≠ some s
  | .ok i => ∃ c, (w.callers i).pc.call = some c ∧ w.Grants lines i c
  | .fail i => (w.callers i).pc.call ≠ none
  | .lost i => ∃ m todo g, (w.callers i).pc = .commit m todo g
  | .ends _ => True

def Action.run (w : World ι) : Action ι → World ι
  | .start i s =>
    ({ w with callers := Function.update w.callers i { w.callers i with session := some s } } : World ι).advance registry i [] (.ok [])
  | .ok i => match (w.callers i).pc.call with
    | some c => (w.effect lines i c).advance registry i (c.tx (w.callers i).tx) (.ok (w.table.versions (lines i)))
    | none => w
  | .fail i => w.advance registry i [] .error
  | .lost i => match (w.callers i).pc.call with
    | some c => (w.effect lines i c).advance registry i [] .error
    | none => w
  | .ends s => { w with ended := Function.update w.ended s true, locks := fun key => Function.update (w.locks key) s 0 }

/-- One step. -/
abbrev Step : World ι → Action ι → World ι → Prop := Guarded (Action.Enabled lines) (Action.run registry lines)

/-! ## What is recorded -/

variable {registry lines}

omit [DecidableEq ι] in
@[simp] theorem versions_ensure (t : Table) (line : String) : t.ensure.versions line = t.versions line := by
  cases t with
  | missing => rfl
  | preLines versions =>
    unfold Table.ensure Table.versions
    dsimp only
    split_ifs with h
    · subst h
      simp [List.filter_map, Function.comp_def]
    · have hne : ¬ defaultLine = line := fun heq => h heq.symm
      simp [List.filter_map, Function.comp_def, hne]
  | lined rows => rfl

/-- An insert on a table with lines. -/
theorem versions_insert (t : Table) (line line' : String) (v : ℤ) :
    (t.ensure.insert line v).versions line' = t.versions line' ++ if line = line' then [v] else [] := by
  have hlined : ∃ rows, t.ensure = .lined rows := by
    cases t <;> exact ⟨_, rfl⟩
  obtain ⟨rows, hrows⟩ := hlined
  rw [← versions_ensure t line', hrows, Table.insert, Table.versions, Table.versions, List.filter_append, List.map_append]
  congr 1
  by_cases h : line = line' <;> simp [h]

/-- The versions whose SQL has been committed for a line. -/
def World.committed (lines : ι → String) (w : World ι) (line : String) : List ℤ :=
  (w.commits.filter fun e => lines e.1 = line).map (·.2.version)

/-- What a call has committed itself. -/
def World.own (w : World ι) (i : ι) : Report := (w.commits.filter fun e => e.1 = i).map fun e => (e.2.version, e.2.name)

/-- A call in the loop: what the registry has before `m` is recorded, and so is what it skips. -/
structure At (registry : List Migration) (rows : List ℤ) (own : Report) (m : Migration) (todo : List Migration) (g : Progress) :
    Prop where
  before : ∃ before, registry = before ++ m :: todo ∧ ∀ u ∈ before, u.version ∈ rows
  applied : ∀ v ∈ g.applied, v ∈ rows
  report : g.report = own

/-- **A caller** with its transaction, against what is recorded for its line and what it has committed. -/
def Sound (registry : List Migration) (rows : List ℤ) (own : Report) (tx : List Stmt) : Pc → Prop
  | .acquire | .lock | .ensureTable | .readApplied => tx = [] ∧ own = []
  | .beginTx m todo g | .ensureTableTx m todo g => tx = [] ∧ At registry rows own m todo g
  | .upSql m todo g => tx = [.ensureTable] ∧ At registry rows own m todo g
  | .insert m todo g => tx = [.ensureTable, .upSql m] ∧ At registry rows own m todo g
  | .commit m todo g => tx = [.ensureTable, .upSql m, .insert m] ∧ At registry rows own m todo g ∧ m.version ∉ rows
  | .unlock report none | .returned (.ok report) => tx = [] ∧ report = own ∧ ∀ u ∈ registry, u.version ∈ rows
  | .unlock _ (some _) | .returned (.error _) => tx = []

/-- The head of the loop. -/
theorem sound_loop {rows : List ℤ} {own : Report} {g : Progress} (happlied : ∀ v ∈ g.applied, v ∈ rows)
    (hreport : g.report = own) : ∀ (todo before : List Migration), registry = before ++ todo → (∀ u ∈ before, u.version ∈ rows) →
      Sound registry rows own [] (upLoop g todo)
  | [], before, heq, hbefore => by
    rw [List.append_nil] at heq
    exact ⟨rfl, hreport, heq ▸ hbefore⟩
  | m :: todo, before, heq, hbefore => by
    by_cases hm : m.version ∈ g.applied
    · have hloop : upLoop g (m :: todo) = upLoop g todo := if_pos hm
      rw [hloop]
      refine sound_loop happlied hreport todo (before ++ [m]) (by rw [heq, List.append_assoc]; rfl) fun u hu => ?_
      rcases List.mem_append.mp hu with hu | hu
      · exact hbefore u hu
      · rw [List.mem_singleton.mp hu]
        exact happlied _ hm
    · have hloop : upLoop g (m :: todo) = .beginTx m todo g := if_neg hm
      rw [hloop]
      exact ⟨rfl, ⟨before, heq, hbefore⟩, happlied, hreport⟩

theorem At.mono {rows rows' : List ℤ} {own : Report} {m : Migration} {todo : List Migration} {g : Progress}
    (h : At registry rows own m todo g) (hsub : ∀ v ∈ rows, v ∈ rows') : At registry rows' own m todo g := by
  obtain ⟨⟨before, heq, hbefore⟩, happlied, hreport⟩ := h
  exact ⟨⟨before, heq, fun u hu => hsub _ (hbefore u hu)⟩, fun v hv => hsub v (happlied v hv), hreport⟩

/-- What others record does not disturb a caller, unless it is what it is about to record itself. -/
theorem Sound.mono {rows rows' : List ℤ} {own : Report} {tx : List Stmt} {pc : Pc} (h : Sound registry rows own tx pc)
    (hsub : ∀ v ∈ rows, v ∈ rows') (hnew : ∀ m, Stmt.insert m ∈ tx → m.version ∉ rows') : Sound registry rows' own tx pc := by
  cases pc with
  | acquire => exact h
  | lock => exact h
  | ensureTable => exact h
  | readApplied => exact h
  | beginTx m todo g => exact ⟨h.1, h.2.mono hsub⟩
  | ensureTableTx m todo g => exact ⟨h.1, h.2.mono hsub⟩
  | upSql m todo g => exact ⟨h.1, h.2.mono hsub⟩
  | insert m todo g => exact ⟨h.1, h.2.mono hsub⟩
  | commit m todo g =>
    obtain ⟨htx, hat, -⟩ := h
    exact ⟨htx, hat.mono hsub, hnew m (by rw [htx]; simp)⟩
  | unlock report err =>
    cases err with
    | none => exact ⟨h.1, h.2.1, fun u hu => hsub _ (h.2.2 u hu)⟩
    | some e => exact h
  | returned result =>
    cases result with
    | ok report => exact ⟨h.1, h.2.1, fun u hu => hsub _ (h.2.2 u hu)⟩
    | error e => exact h

/-- **The history**: what is recorded are the first versions and then those that the calls have committed, each once and along the
registry, and what comes before a committed one is recorded. -/
structure Inv (registry : List Migration) (lines : ι → String) (first : String → List ℤ) (w : World ι) : Prop where
  rows : ∀ line, w.table.versions line = first line ++ w.committed lines line
  nodup : ∀ line, (w.table.versions line).Nodup
  order : ∀ line, (w.committed lines line).Sublist (registry.map (·.version))
  closed : ∀ line before m todo, registry = before ++ m :: todo → m.version ∈ w.committed lines line →
    ∀ u ∈ before, u.version ∈ w.table.versions line
  sound : ∀ i, Sound registry (w.table.versions (lines i)) (w.own i) (w.callers i).tx (w.callers i).pc
  apart : ∀ i j, i ≠ j → lines i = lines j → ∀ m m', Stmt.insert m ∈ (w.callers i).tx → Stmt.insert m' ∈ (w.callers j).tx →
    m.version ≠ m'.version

section Steps

variable {first : String → List ℤ} {w w' : World ι} {i : ι}

/-- Callers of one line are apart when the one that moves is apart from the others. -/
theorem apart_update {callers : ι → Caller} {c : Caller}
    (h : ∀ j k, j ≠ k → lines j = lines k → ∀ m m', Stmt.insert m ∈ (callers j).tx → Stmt.insert m' ∈ (callers k).tx →
      m.version ≠ m'.version)
    (hmoved : ∀ j, j ≠ i → lines j = lines i → ∀ m m', Stmt.insert m ∈ c.tx → Stmt.insert m' ∈ (callers j).tx →
      m.version ≠ m'.version) :
    ∀ j k, j ≠ k → lines j = lines k → ∀ m m', Stmt.insert m ∈ (Function.update callers i c j).tx →
      Stmt.insert m' ∈ (Function.update callers i c k).tx → m.version ≠ m'.version := by
  intro j k hjk hline m m' hm hm'
  by_cases hj : j = i
  · subst hj
    rw [Function.update_self] at hm
    rw [Function.update_of_ne (Ne.symm hjk)] at hm'
    exact hmoved k (Ne.symm hjk) hline.symm m m' hm hm'
  · rw [Function.update_of_ne hj] at hm
    by_cases hk : k = i
    · subst hk
      rw [Function.update_self] at hm'
      exact (hmoved j hj hline m' m hm' hm).symm
    · rw [Function.update_of_ne hk] at hm'
      exact h j k hjk hline m m' hm hm'

/-- A step of one caller that commits nothing. -/
theorem Inv.move (h : Inv registry lines first w) {c : Caller} (hcallers : w'.callers = Function.update w.callers i c)
    (htable : ∀ line, w'.table.versions line = w.table.versions line) (hcommits : w'.commits = w.commits)
    (hsound : Sound registry (w.table.versions (lines i)) (w.own i) c.tx c.pc)
    (hapart : ∀ j, j ≠ i → lines j = lines i → ∀ m m', Stmt.insert m ∈ c.tx → Stmt.insert m' ∈ (w.callers j).tx →
      m.version ≠ m'.version) : Inv registry lines first w' := by
  have hcommitted : ∀ line, w'.committed lines line = w.committed lines line := by
    intro line
    rw [World.committed, hcommits, World.committed]
  have hown : ∀ j, w'.own j = w.own j := by
    intro j
    rw [World.own, hcommits, World.own]
  constructor
  · intro line
    rw [htable, hcommitted]
    exact h.rows line
  · intro line
    rw [htable]
    exact h.nodup line
  · intro line
    rw [hcommitted]
    exact h.order line
  · intro line before m todo heq hm u hu
    rw [hcommitted] at hm
    rw [htable]
    exact h.closed line before m todo heq hm u hu
  · intro j
    rw [htable, hown, hcallers]
    by_cases hj : j = i
    · subst hj
      rw [Function.update_self]
      exact hsound
    · rw [Function.update_of_ne hj]
      exact h.sound j
  · rw [hcallers]
    exact apart_update h.apart hapart

/-- The versions of a registry before one that is not yet recorded have all been committed before it. -/
theorem sublist_snoc {l before todo : List ℤ} {v : ℤ} (hnd : (before ++ v :: todo).Nodup) (hl : l.Sublist (before ++ v :: todo))
    (hmem : ∀ u ∈ l, u ∈ before) : (l ++ [v]).Sublist (before ++ v :: todo) := by
  obtain ⟨l₁, l₂, rfl, h₁, h₂⟩ := List.sublist_append_iff.mp hl
  have hnil : l₂ = [] := by
    cases l₂ with
    | nil => rfl
    | cons u l₂ =>
      have hbefore := hmem u (List.mem_append_right _ List.mem_cons_self)
      exact absurd rfl ((List.nodup_append.mp hnd).2.2 u hbefore u (h₂.subset List.mem_cons_self))
  subst hnil
  rw [List.append_nil]
  exact h₁.append (List.singleton_sublist.mpr List.mem_cons_self)

/-- Where a version stands in a registry. -/
theorem split_unique {m m' : Migration} (hv : m.version = m'.version) : ∀ {before before' todo todo' : List Migration},
    ((before ++ m :: todo).map (·.version)).Nodup → before ++ m :: todo = before' ++ m' :: todo' → before = before'
  | [], [], _, _, _, _ => rfl
  | [], u :: before', todo, todo', hnd, heq => by
    obtain ⟨rfl, htodo⟩ := List.cons.inj heq
    rw [List.nil_append, List.map_cons, List.nodup_cons] at hnd
    exact absurd (List.mem_map.mpr ⟨m', by rw [htodo]; simp, hv.symm⟩) hnd.1
  | u :: before, [], todo, todo', hnd, heq => by
    obtain ⟨rfl, -⟩ := List.cons.inj heq
    rw [List.cons_append, List.map_cons, List.nodup_cons] at hnd
    exact absurd (List.mem_map.mpr ⟨m, by simp, hv⟩) hnd.1
  | u :: before, u' :: before', todo, todo', hnd, heq => by
    obtain ⟨rfl, htail⟩ := List.cons.inj heq
    rw [List.cons_append, List.map_cons, List.nodup_cons] at hnd
    rw [split_unique hv hnd.2 htail]

/-- A transaction that has inserted a version has one that is not recorded. -/
theorem Sound.insert {rows : List ℤ} {own : Report} {tx : List Stmt} {pc : Pc} (h : Sound registry rows own tx pc) {m : Migration}
    (hm : Stmt.insert m ∈ tx) : m.version ∉ rows := by
  cases pc with
  | commit m' todo g =>
    obtain ⟨rfl, -, hnew⟩ := h
    simp only [List.mem_cons, reduceCtorEq, Stmt.insert.injEq, List.not_mem_nil, or_false, false_or] at hm
    rwa [hm]
  | insert m' todo g =>
    obtain ⟨rfl, -⟩ := h
    simp at hm
  | upSql m' todo g =>
    obtain ⟨rfl, -⟩ := h
    simp at hm
  | acquire | lock | ensureTable | readApplied | beginTx | ensureTableTx =>
    obtain ⟨rfl, -⟩ := h
    cases hm
  | unlock report err =>
    cases err with
    | none =>
      obtain ⟨rfl, -⟩ := h
      cases hm
    | some e =>
      cases (h : tx = [])
      cases hm
  | returned result =>
    cases result with
    | ok report =>
      obtain ⟨rfl, -⟩ := h
      cases hm
    | error e =>
      cases (h : tx = [])
      cases hm

/-- The commit of a migration. -/
def World.record (lines : ι → String) (i : ι) (m : Migration) (w : World ι) : World ι :=
  { w with table := w.table.ensure.insert (lines i) m.version, commits := w.commits ++ [(i, m)] }

omit [DecidableEq ι] in
theorem record_versions (m : Migration) (line : String) :
    (w.record lines i m).table.versions line = w.table.versions line ++ if lines i = line then [m.version] else [] :=
  versions_insert _ _ _ _

omit [DecidableEq ι] in
theorem record_committed (m : Migration) (line : String) :
    (w.record lines i m).committed lines line = w.committed lines line ++ if lines i = line then [m.version] else [] := by
  rw [World.committed, World.record, List.filter_append, List.map_append, World.committed]
  congr 1
  by_cases hline : lines i = line <;> simp [hline]

theorem record_own (m : Migration) (j : ι) :
    (w.record lines i m).own j = w.own j ++ if i = j then [(m.version, m.name)] else [] := by
  rw [World.own, World.record, List.filter_append, List.map_append, World.own]
  congr 1
  by_cases hj : i = j <;> simp [hj]

/-- The committed versions stay in the order of the registry: a version behind `m` is committed only when `m` is recorded. -/
theorem Inv.order_snoc (h : Inv registry lines first w) (hnd : (registry.map (·.version)).Nodup) {m : Migration}
    {before todo : List Migration} (heq : registry = before ++ m :: todo) {line : String}
    (hnew : m.version ∉ w.table.versions line) :
    (w.committed lines line ++ [m.version]).Sublist (registry.map (·.version)) := by
  have horder := h.order line
  rw [heq, List.map_append, List.map_cons] at hnd horder ⊢
  refine sublist_snoc hnd horder fun u hu => ?_
  have hrec : u ∈ w.table.versions line := by
    rw [h.rows]
    exact List.mem_append_right _ hu
  rcases List.mem_append.mp (horder.subset hu) with hb | hb
  · exact hb
  · rcases List.mem_cons.mp hb with rfl | hb
    · exact absurd hrec hnew
    · obtain ⟨x, hx, rfl⟩ := List.mem_map.mp hb
      obtain ⟨t₁, t₂, rfl⟩ := List.append_of_mem hx
      have hclosed := h.closed line (before ++ m :: t₁) x t₂ (by rw [heq]; simp) hu m (by simp)
      exact absurd hclosed hnew

/-- **A commit**, whether or not its reply arrives. -/
theorem Inv.commit (h : Inv registry lines first w) (hnd : (registry.map (·.version)).Nodup) {m : Migration} {todo : List Migration}
    {g : Progress} (hpc : (w.callers i).pc = .commit m todo g) {c : Caller} (htx : c.tx = [])
    (hsound : Sound registry ((w.record lines i m).table.versions (lines i)) ((w.record lines i m).own i) [] c.pc) :
    Inv registry lines first { w.record lines i m with callers := Function.update w.callers i c } := by
  have hi := h.sound i
  rw [hpc] at hi
  obtain ⟨htxi, ⟨⟨before, heq, hbefore⟩, -, -⟩, hnew⟩ := hi
  have hinserted : Stmt.insert m ∈ (w.callers i).tx := by
    rw [htxi]
    simp
  have hsub : ∀ line, ∀ v ∈ w.table.versions line, v ∈ (w.record lines i m).table.versions line := by
    intro line v hv
    rw [record_versions]
    exact List.mem_append_left _ hv
  constructor
  · intro line
    change (w.record lines i m).table.versions line = first line ++ (w.record lines i m).committed lines line
    rw [record_versions, record_committed, h.rows, List.append_assoc]
  · intro line
    change ((w.record lines i m).table.versions line).Nodup
    rw [record_versions]
    split_ifs with hline
    · subst hline
      refine List.nodup_append.mpr ⟨h.nodup _, List.nodup_singleton _, fun u hu v hv heq => ?_⟩
      rw [List.mem_singleton.mp hv] at heq
      exact hnew (heq ▸ hu)
    · rw [List.append_nil]
      exact h.nodup line
  · intro line
    change ((w.record lines i m).committed lines line).Sublist (registry.map (·.version))
    rw [record_committed]
    split_ifs with hline
    · subst hline
      exact h.order_snoc hnd heq hnew
    · rw [List.append_nil]
      exact h.order line
  · intro line before' m' todo' heq' hm' u hu
    change m'.version ∈ (w.record lines i m).committed lines line at hm'
    rw [record_committed] at hm'
    rcases List.mem_append.mp hm' with hold | hlast
    · exact hsub line _ (h.closed line before' m' todo' heq' hold u hu)
    · split_ifs at hlast with hline
      · subst hline
        have hsame : before = before' := by
          rw [heq] at hnd heq'
          exact split_unique (List.mem_singleton.mp hlast).symm hnd heq'
        exact hsub _ _ (hbefore u (hsame ▸ hu))
      · cases hlast
  · intro j
    by_cases hj : j = i
    · subst hj
      dsimp only
      rw [Function.update_self, htx]
      exact hsound
    · have hown : (w.record lines i m).own j = w.own j := by
        rw [record_own, if_neg (Ne.symm hj), List.append_nil]
      have hother := h.sound j
      dsimp only
      rw [Function.update_of_ne hj]
      change Sound registry ((w.record lines i m).table.versions (lines j)) ((w.record lines i m).own j) _ _
      rw [hown]
      refine hother.mono (hsub _) fun m' hm' => ?_
      rw [record_versions]
      intro hmem
      rcases List.mem_append.mp hmem with hmem | hmem
      · exact hother.insert hm' hmem
      · split_ifs at hmem with hline
        · exact h.apart j i hj hline.symm m' m hm' hinserted (List.mem_singleton.mp hmem)
        · cases hmem
  · exact apart_update h.apart fun _ _ _ _ _ hm _ => absurd (htx ▸ hm) List.not_mem_nil

omit [DecidableEq ι] in
theorem lock_frame (lines : ι → String) (w : World ι) (i : ι) (c : Call) : (w.lock lines i c).table = w.table ∧ (w.lock lines i c).commits = w.commits ∧
    (w.lock lines i c).callers = w.callers := by
  unfold World.lock
  split <;> exact ⟨rfl, rfl, rfl⟩

omit [DecidableEq ι] in
/-- Only a commit records anything. -/
theorem effect_frame (lines : ι → String) (w : World ι) (i : ι) {c : Call} (hc : ∀ m, c ≠ .commit m) :
    (∀ line, (w.effect lines i c).table.versions line = w.table.versions line) ∧
      (w.effect lines i c).commits = w.commits ∧ (w.effect lines i c).callers = w.callers := by
  cases c with
  | commit m => exact absurd rfl (hc m)
  | lock =>
    obtain ⟨ht, hcommits, hcallers⟩ := lock_frame lines w i .lock
    exact ⟨fun line => congrArg (Table.versions line) ht, hcommits, hcallers⟩
  | unlock =>
    obtain ⟨ht, hcommits, hcallers⟩ := lock_frame lines w i .unlock
    exact ⟨fun line => congrArg (Table.versions line) ht, hcommits, hcallers⟩
  | ensureTable => exact ⟨fun line => versions_ensure w.table line, rfl, rfl⟩
  | acquire => exact ⟨fun _ => rfl, rfl, rfl⟩
  | readApplied => exact ⟨fun _ => rfl, rfl, rfl⟩
  | beginTx m => exact ⟨fun _ => rfl, rfl, rfl⟩
  | ensureTableTx m => exact ⟨fun _ => rfl, rfl, rfl⟩
  | upSql m => exact ⟨fun _ => rfl, rfl, rfl⟩
  | insert m => exact ⟨fun _ => rfl, rfl, rfl⟩

/-- The caller goes on without having committed. -/
theorem Inv.advance (h : Inv registry lines first w) (htable : ∀ line, w'.table.versions line = w.table.versions line)
    (hcommits : w'.commits = w.commits) (hcallers : w'.callers = w.callers) {tx : List Stmt} {reply : Reply}
    (hsound : Sound registry (w.table.versions (lines i)) (w.own i) tx ((w.callers i).pc.next registry reply))
    (hapart : ∀ j, j ≠ i → lines j = lines i → ∀ m m', Stmt.insert m ∈ tx → Stmt.insert m' ∈ (w.callers j).tx →
      m.version ≠ m'.version) : Inv registry lines first (w'.advance registry i tx reply) := by
  have hnew : (w'.advance registry i tx reply).callers = Function.update w.callers i
      ⟨(w.callers i).pc.next registry reply,
        if ((w.callers i).pc.next registry reply).call = none then none else (w.callers i).session, tx⟩ := by
    rw [World.advance, hcallers]
  exact h.move hnew htable hcommits hsound hapart

omit [DecidableEq ι] in
/-- A transaction without an insert. -/
theorem apart_of_not_insert {tx : List Stmt} (htx : ∀ m, Stmt.insert m ∉ tx) :
    ∀ j, j ≠ i → lines j = lines i → ∀ m m', Stmt.insert m ∈ tx → Stmt.insert m' ∈ (w.callers j).tx → m.version ≠ m'.version :=
  fun _ _ _ m _ hm _ => absurd hm (htx m)

/-- The same for a call that succeeds. -/
theorem Inv.succeeds (h : Inv registry lines first w) {c : Call} (hc : ∀ m, c ≠ .commit m)
    (hsound : Sound registry (w.table.versions (lines i)) (w.own i) (c.tx (w.callers i).tx)
      ((w.callers i).pc.next registry (.ok (w.table.versions (lines i)))))
    (hapart : ∀ j, j ≠ i → lines j = lines i → ∀ m m', Stmt.insert m ∈ c.tx (w.callers i).tx →
      Stmt.insert m' ∈ (w.callers j).tx → m.version ≠ m'.version) :
    Inv registry lines first
      ((w.effect lines i c).advance registry i (c.tx (w.callers i).tx) (.ok (w.table.versions (lines i)))) := by
  obtain ⟨htable, hcommits, hcallers⟩ := effect_frame lines w i hc
  exact h.advance htable hcommits hcallers hsound hapart

omit [DecidableEq ι] in
theorem effect_commit {m : Migration} (htx : (w.callers i).tx = [.ensureTable, .upSql m, .insert m]) :
    w.effect lines i (.commit m) = w.record lines i m := by
  rw [World.effect, htx]
  rfl

/-- A call that fails before its commit. -/
theorem Inv.fails (h : Inv registry lines first w) : Inv registry lines first (w.advance registry i [] .error) := by
  refine h.advance (fun _ => rfl) rfl rfl ?_ (apart_of_not_insert fun _ => List.not_mem_nil)
  have hi := h.sound i
  cases hpc : (w.callers i).pc with
  | returned result =>
    rw [hpc] at hi
    cases result with
    | ok report => exact ⟨rfl, hi.2⟩
    | error e => exact rfl
  | unlock report err =>
    rw [hpc] at hi
    cases err with
    | none => exact ⟨rfl, hi.2⟩
    | some e => exact rfl
  | acquire | lock | ensureTable | readApplied => exact rfl
  | beginTx | ensureTableTx | upSql | insert | commit => exact rfl

/-- A commit that succeeds, after which the loop goes on with one version more. -/
theorem Inv.commits (h : Inv registry lines first w) (hnd : (registry.map (·.version)).Nodup) {m : Migration} {todo : List Migration}
    {g : Progress} (hpc : (w.callers i).pc = .commit m todo g) :
    Inv registry lines first ((w.effect lines i (.commit m)).advance registry i (Call.tx (.commit m) (w.callers i).tx)
      (.ok (w.table.versions (lines i)))) := by
  have hi := h.sound i
  rw [hpc] at hi
  obtain ⟨htx, ⟨⟨before, heq, hbefore⟩, happlied, hreport⟩, hnew⟩ := hi
  rw [effect_commit htx]
  refine h.commit hnd hpc (c := ⟨(w.callers i).pc.next registry _, _, []⟩) rfl ?_
  rw [hpc, record_versions, if_pos rfl, record_own, if_pos rfl]
  have hsplit : registry = (before ++ [m]) ++ todo := by
    rw [heq, List.append_assoc]
    rfl
  refine sound_loop (g := { g with report := g.report ++ [(m.version, m.name)] })
    (fun v hv => List.mem_append_left _ (happlied v hv)) (congrArg (· ++ [(m.version, m.name)]) hreport) todo (before ++ [m])
    hsplit fun u hu => ?_
  rcases List.mem_append.mp hu with hu | hu
  · exact List.mem_append_left _ (hbefore u hu)
  · rw [List.mem_singleton.mp hu]
    exact List.mem_append_right _ (List.mem_singleton_self _)

/-- A call that succeeds. -/
theorem Inv.ok (h : Inv registry lines first w) (hnd : (registry.map (·.version)).Nodup) {c : Call}
    (hc : (w.callers i).pc.call = some c) (hg : w.Grants lines i c) :
    Inv registry lines first
      ((w.effect lines i c).advance registry i (c.tx (w.callers i).tx) (.ok (w.table.versions (lines i)))) := by
  have hi := h.sound i
  cases hpc : (w.callers i).pc with
  | returned result =>
    rw [hpc] at hc
    cases hc
  | acquire =>
    rw [hpc] at hc
    cases hc
    exact absurd hg id
  | lock | ensureTable | beginTx =>
    rw [hpc] at hc hi
    cases hc
    refine h.succeeds nofun ?_ (apart_of_not_insert fun m => ?_)
    · rw [hpc]
      exact hi
    · simp [Call.tx, hi.1]
  | readApplied =>
    rw [hpc] at hc hi
    cases hc
    obtain ⟨htx, hown⟩ := hi
    refine h.succeeds nofun ?_ (apart_of_not_insert fun m => ?_)
    · rw [hpc, htx]
      exact sound_loop (fun _ hv => hv) hown.symm registry [] rfl fun _ hu => absurd hu List.not_mem_nil
    · simp [Call.tx, htx]
  | ensureTableTx | upSql =>
    rw [hpc] at hc hi
    cases hc
    obtain ⟨htx, hat⟩ := hi
    refine h.succeeds nofun ?_ (apart_of_not_insert fun m => ?_)
    · rw [hpc, htx]
      exact ⟨rfl, hat⟩
    · simp [Call.tx, htx]
  | insert m todo g =>
    rw [hpc] at hc hi
    cases hc
    obtain ⟨htx, hat⟩ := hi
    refine h.succeeds nofun ?_ fun j hj hline m₁ m' h₁ h₂ => ?_
    · rw [hpc, htx]
      exact ⟨rfl, hat, hg.1⟩
    · have hm : m₁ = m := by
        rw [htx] at h₁
        simpa [Call.tx] using h₁
      rw [hm]
      exact hg.2 j hj hline m' h₂
  | commit m todo g =>
    rw [hpc] at hc
    cases hc
    exact h.commits hnd hpc
  | unlock report err =>
    rw [hpc] at hc hi
    cases hc
    have htx : (w.callers i).tx = [] := by
      cases err with
      | none => exact hi.1
      | some e => exact hi
    refine h.succeeds nofun ?_ (apart_of_not_insert fun m => ?_)
    · rw [hpc]
      cases err <;> exact hi
    · simp [Call.tx, htx]

/-- A commit whose reply is lost. -/
theorem Inv.lost (h : Inv registry lines first w) (hnd : (registry.map (·.version)).Nodup) {m : Migration} {todo : List Migration}
    {g : Progress} (hpc : (w.callers i).pc = .commit m todo g) :
    Inv registry lines first ((w.effect lines i (.commit m)).advance registry i [] .error) := by
  have hi := h.sound i
  rw [hpc] at hi
  rw [effect_commit hi.1]
  refine h.commit hnd hpc (c := ⟨(w.callers i).pc.next registry _, _, []⟩) rfl ?_
  rw [hpc]
  rfl

/-- A caller that gets its connection. -/
theorem Inv.start (h : Inv registry lines first w) (hpc : (w.callers i).pc = .acquire) (s : ℕ) :
    Inv registry lines first (({ w with callers := Function.update w.callers i { w.callers i with session := some s } } :
      World ι).advance registry i [] (.ok [])) := by
  have hi := h.sound i
  rw [hpc] at hi
  refine h.move (c := ⟨.lock, some s, []⟩) ?_ (fun _ => rfl) rfl ⟨rfl, hi.2⟩ (apart_of_not_insert fun _ => List.not_mem_nil)
  simp only [World.advance, Function.update_idem, Function.update_self, hpc]
  rfl

theorem Inv.step (h : Inv registry lines first w) (hnd : (registry.map (·.version)).Nodup) {a : Action ι}
    (hs : Step registry lines w a w') : Inv registry lines first w' := by
  obtain ⟨hok, rfl⟩ := hs
  cases a with
  | start i s => exact h.start hok.1 s
  | ok i =>
    obtain ⟨c, hc, hg⟩ := hok
    rw [Action.run, hc]
    exact h.ok hnd hc hg
  | fail i => exact h.fails
  | lost i =>
    obtain ⟨m, todo, g, hpc⟩ := hok
    have hc : (w.callers i).pc.call = some (.commit m) := by rw [hpc, Pc.call]
    rw [Action.run, hc]
    exact h.lost hnd hpc
  | ends s => exact ⟨h.rows, h.nodup, h.order, h.closed, h.sound, h.apart⟩

end Steps

/-! ## Runs -/

/-- A database whose primary key holds, with calls that have not started. -/
structure World.Fresh (w : World ι) : Prop where
  keys : ∀ line, (w.table.versions line).Nodup
  commits : w.commits = []
  callers : ∀ i, w.callers i = {}

theorem World.Fresh.inv {w : World ι} (h : w.Fresh) :
    Inv registry lines (fun line => w.table.versions line) w := by
  have hcommitted : ∀ line, w.committed lines line = [] := by
    intro line
    rw [World.committed, h.commits]
    rfl
  have hown : ∀ i, w.own i = [] := by
    intro i
    rw [World.own, h.commits]
    rfl
  constructor
  · intro line
    rw [hcommitted, List.append_nil]
  · exact h.keys
  · intro line
    rw [hcommitted]
    exact List.nil_sublist _
  · intro line before m todo _ hm
    rw [hcommitted] at hm
    cases hm
  · intro i
    rw [h.callers, hown]
    exact ⟨rfl, rfl⟩
  · intro i j _ _ m m' hm
    rw [h.callers] at hm
    cases hm

/-- The versions are those of the first migrations of the registry. -/
def IsPrefix (registry : List Migration) (versions : List ℤ) : Prop :=
  ∃ done todo, registry = done ++ todo ∧ ∀ v, v ∈ versions ↔ v ∈ done.map (·.version)

/-- Versions that come with all before them. -/
theorem isPrefix_of_closed {versions : List ℤ} (hsub : ∀ v ∈ versions, v ∈ registry.map (·.version))
    (hclosed : ∀ before m todo, registry = before ++ m :: todo → m.version ∈ versions → ∀ u ∈ before, u.version ∈ versions) :
    ∀ (todo done : List Migration), registry = done ++ todo → (∀ u ∈ done, u.version ∈ versions) → IsPrefix registry versions
  | [], done, heq, hdone => by
    refine ⟨done, [], heq, fun v => ⟨fun hv => ?_, fun hv => ?_⟩⟩
    · have hv := hsub v hv
      rwa [heq, List.append_nil] at hv
    · obtain ⟨u, hu, rfl⟩ := List.mem_map.mp hv
      exact hdone u hu
  | m :: todo, done, heq, hdone => by
    by_cases hm : m.version ∈ versions
    · refine isPrefix_of_closed hsub hclosed todo (done ++ [m]) (by rw [heq, List.append_assoc]; rfl) fun u hu => ?_
      rcases List.mem_append.mp hu with hu | hu
      · exact hdone u hu
      · rwa [List.mem_singleton.mp hu]
    · refine ⟨done, m :: todo, heq, fun v => ⟨fun hv => ?_, fun hv => ?_⟩⟩
      · have hreg := hsub v hv
        rw [heq, List.map_append, List.map_cons] at hreg
        rcases List.mem_append.mp hreg with hd | hd
        · exact hd
        · rcases List.mem_cons.mp hd with rfl | hd
          · exact absurd hv hm
          · obtain ⟨x, hx, rfl⟩ := List.mem_map.mp hd
            obtain ⟨t₁, t₂, rfl⟩ := List.append_of_mem hx
            exact absurd (hclosed (done ++ m :: t₁) x t₂ (by rw [heq]; simp) hv m (by simp)) hm
      · obtain ⟨u, hu, rfl⟩ := List.mem_map.mp hv
        exact hdone u hu

/-- A prefix comes with all before it. -/
theorem IsPrefix.closed {versions : List ℤ} (h : IsPrefix registry versions) (hnd : (registry.map (·.version)).Nodup)
    {before todo : List Migration} {m : Migration} (heq : registry = before ++ m :: todo) (hm : m.version ∈ versions) :
    ∀ u ∈ before, u.version ∈ versions := by
  obtain ⟨done, rest, hsplit, hmem⟩ := h
  obtain ⟨x, hx, hxm⟩ := List.mem_map.mp ((hmem _).mp hm)
  obtain ⟨d₁, d₂, rfl⟩ := List.append_of_mem hx
  have hsplit' : registry = d₁ ++ x :: (d₂ ++ rest) := by
    rw [hsplit, List.append_assoc]
    rfl
  have hsame : d₁ = before := by
    rw [hsplit'] at hnd heq
    exact split_unique hxm hnd heq
  intro u hu
  exact (hmem _).mpr (List.mem_map.mpr ⟨u, List.mem_append_left _ (hsame ▸ hu), rfl⟩)

/-- An empty database. -/
def empty : World (Fin 2) :=
  { table := .missing, commits := [], locks := fun _ _ => 0, ended := fun _ => false, callers := fun _ => {} }

end World

end Eddyq.Pg.Migrate
