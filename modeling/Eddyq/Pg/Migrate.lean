import Mathlib.Data.Int.Notation
import Mathlib.Data.List.Basic
import Mathlib.Logic.Function.Iterate

/-!
# The migration runner

`migrate::up` as the sequence of its database calls: a program counter (`Pc`), the call that it makes there (`Pc.call`) and where the
reply leads (`Pc.next`). A call with a `?` returns at once, one whose error is collected goes to the unlock. The loop skips what was
applied when the call looked.

Alone, a call of `up` always returns (`up_ends`), and it has given its lock back exactly when the first call that fails is none of
those with a `?` behind the lock (`up_releases_iff`).
-/

namespace Eddyq.Pg.Migrate

/-! ## The registry -/

/-- `Migration`; its SQL is run by the database. -/
structure Migration where
  version : ℤ
  name : String
  deriving DecidableEq

/-- `MIGRATIONS`, newest last. -/
def migrations : List Migration := [
  ⟨20260421000001, "init"⟩,
  ⟨20260509000001, "batches"⟩,
  ⟨20260511000001, "schedule_intervals"⟩,
  ⟨20260518000001, "stalled_count"⟩,
  ⟨20260701000001, "hot_row_fillfactor"⟩,
  ⟨20261028000001, "stats_cache"⟩,
  ⟨20261028000002, "group_queue_index"⟩]

/-- The field `applied` of `MigrateReport`. -/
abbrev Report := List (ℤ × String)

/-! ## The program -/

/-- A call of the database. -/
inductive Call
  | acquire
  | lock
  | ensureTable
  | readApplied
  | beginTx (m : Migration)
  | ensureTableTx (m : Migration)
  | upSql (m : Migration)
  | insert (m : Migration)
  | commit (m : Migration)
  | unlock
  deriving DecidableEq

/-- What the loop has: the versions that were applied when the call looked, and the report. -/
structure Progress where
  applied : List ℤ
  report : Report

/-- Where a call of `up` is, in the loop with the migrations that are left. -/
inductive Pc
  | acquire
  | lock
  | ensureTable
  | readApplied
  | beginTx (m : Migration) (todo : List Migration) (g : Progress)
  | ensureTableTx (m : Migration) (todo : List Migration) (g : Progress)
  | upSql (m : Migration) (todo : List Migration) (g : Progress)
  | insert (m : Migration) (todo : List Migration) (g : Progress)
  | commit (m : Migration) (todo : List Migration) (g : Progress)
  | unlock (report : Report) (migrationErr : Option Call)
  | returned (result : Except Call Report)

def Pc.call : Pc → Option Call
  | .acquire => some .acquire
  | .lock => some .lock
  | .ensureTable => some .ensureTable
  | .readApplied => some .readApplied
  | .beginTx m _ _ => some (.beginTx m)
  | .ensureTableTx m _ _ => some (.ensureTableTx m)
  | .upSql m _ _ => some (.upSql m)
  | .insert m _ _ => some (.insert m)
  | .commit m _ _ => some (.commit m)
  | .unlock _ _ => some .unlock
  | .returned _ => none

/-- The head of the loop. -/
def upLoop (g : Progress) : List Migration → Pc
  | [] => .unlock g.report none
  | m :: todo => if m.version ∈ g.applied then upLoop g todo else .beginTx m todo g

/-- What the database answers; `rows` is what a query reads. -/
inductive Reply
  | ok (rows : List ℤ)
  | error

def Pc.next (registry : List Migration) : Pc → Reply → Pc
  | .acquire, .ok _ => .lock
  | .acquire, .error => .returned (.error .acquire)
  | .lock, .ok _ => .ensureTable
  | .lock, .error => .returned (.error .lock)
  | .ensureTable, .ok _ => .readApplied
  | .ensureTable, .error => .returned (.error .ensureTable)
  | .readApplied, .ok rows => upLoop ⟨rows, []⟩ registry
  | .readApplied, .error => .returned (.error .readApplied)
  | .beginTx m todo g, .ok _ => .ensureTableTx m todo g
  | .beginTx m _ _, .error => .returned (.error (.beginTx m))
  | .ensureTableTx m todo g, .ok _ => .upSql m todo g
  | .ensureTableTx m _ _, .error => .returned (.error (.ensureTableTx m))
  | .upSql m todo g, .ok _ => .insert m todo g
  | .upSql m _ g, .error => .unlock g.report (some (.upSql m))
  | .insert m todo g, .ok _ => .commit m todo g
  | .insert m _ g, .error => .unlock g.report (some (.insert m))
  | .commit m todo g, .ok _ => upLoop { g with report := g.report ++ [(m.version, m.name)] } todo
  | .commit m _ g, .error => .unlock g.report (some (.commit m))
  -- `let _`: the reply of the unlock is not looked at.
  | .unlock _ (some e), _ => .returned (.error e)
  | .unlock report none, _ => .returned (.ok report)
  | .returned result, _ => .returned result

/-! ## A call alone -/

/-- A call of `up`, and how often the session of its pooled connection holds the lock of the line. -/
structure Session where
  pc : Pc
  held : ℕ

/-- What a call that succeeds does to the lock. -/
def Call.locks : Call → ℕ → ℕ
  | .lock, held => held + 1
  | .unlock, held => held - 1
  | _, held => held

section Alone

variable (registry : List Migration) (fails : Call → Bool) (rows : List ℤ)

/-- The next call, which fails or reads the rows. -/
def Session.step (s : Session) : Session :=
  match s.pc.call with
  | none => s
  | some c =>
    if fails c then { s with pc := s.pc.next registry .error }
    else { pc := s.pc.next registry (.ok rows), held := c.locks s.held }

/-- `up`, with as many calls as it can make. -/
def up : Session := (Session.step registry fails rows)^[5 * registry.length + 5] ⟨.acquire, 0⟩

/-- The calls of a migration that is not applied. -/
def migrationCalls (m : Migration) : List Call := [.beginTx m, .ensureTableTx m, .upSql m, .insert m, .commit m]

def pendingCalls (todo : List Migration) : List Call := (todo.filter (·.version ∉ rows)).flatMap migrationCalls

/-- The calls that a run without failures makes before it unlocks. -/
def calls : List Call := [.acquire, .lock, .ensureTable, .readApplied] ++ pendingCalls rows registry

/-- When the lock is free after `up`: nothing failed that returns at once with the lock taken, and the unlock worked. -/
def Releases : Prop :=
  match (calls registry rows).find? fails with
  | some .acquire | some .lock => True
  | none | some (.upSql _) | some (.insert _) | some (.commit _) => fails .unlock = false
  | _ => False

/-- How often it is held, by the first call that fails behind it. -/
def heldAfter : Option Call → ℕ
  | none | some (.upSql _) | some (.insert _) | some (.commit _) => if fails .unlock then 1 else 0
  | _ => 1

/-- The session returns within `n` calls and holds the lock `h` times. -/
def Ends (n : ℕ) (s : Session) (h : ℕ) : Prop := ∃ r, (Session.step registry fails rows)^[n] s = ⟨.returned r, h⟩

variable {registry fails rows}

theorem ends_returned (r : Except Call Report) (n h : ℕ) : Ends registry fails rows n ⟨.returned r, h⟩ h :=
  ⟨r, Function.iterate_fixed rfl n⟩

theorem Ends.mono {n k h : ℕ} {s : Session} (he : Ends registry fails rows n s h) (hnk : n ≤ k) :
    Ends registry fails rows k s h := by
  obtain ⟨r, hr⟩ := he
  obtain ⟨j, rfl⟩ := Nat.exists_eq_add_of_le' hnk
  refine ⟨r, ?_⟩
  rw [Function.iterate_add_apply, hr]
  exact Function.iterate_fixed rfl j

/-- A call that fails. -/
theorem Ends.fail {n h held : ℕ} {pc : Pc} {c : Call} (hc : pc.call = some c) (hf : fails c = true)
    (he : Ends registry fails rows n ⟨pc.next registry .error, held⟩ h) : Ends registry fails rows (n + 1) ⟨pc, held⟩ h := by
  have hstep : Session.step registry fails rows ⟨pc, held⟩ = ⟨pc.next registry .error, held⟩ := by
    rw [Session.step]
    dsimp only
    rw [hc]
    dsimp only
    rw [if_pos hf]
  obtain ⟨r, hr⟩ := he
  exact ⟨r, by rw [Function.iterate_succ_apply, hstep, hr]⟩

/-- A call that succeeds. -/
theorem Ends.ok {n h held : ℕ} {pc : Pc} {c : Call} (hc : pc.call = some c) (hf : fails c = false)
    (he : Ends registry fails rows n ⟨pc.next registry (.ok rows), c.locks held⟩ h) :
    Ends registry fails rows (n + 1) ⟨pc, held⟩ h := by
  have hstep : Session.step registry fails rows ⟨pc, held⟩ = ⟨pc.next registry (.ok rows), c.locks held⟩ := by
    rw [Session.step]
    dsimp only
    rw [hc]
    dsimp only
    rw [if_neg (Bool.eq_false_iff.mp hf)]
  obtain ⟨r, hr⟩ := he
  exact ⟨r, by rw [Function.iterate_succ_apply, hstep, hr]⟩

/-- The unlock at the end. -/
theorem ends_unlock (report : Report) (err : Option Call) :
    Ends registry fails rows 1 ⟨.unlock report err, 1⟩ (if fails .unlock then 1 else 0) := by
  cases hf : fails .unlock with
  | true => cases err <;> exact .fail rfl hf (ends_returned _ 0 1)
  | false => cases err <;> exact .ok rfl hf (ends_returned _ 0 0)

/-- The five calls of a migration; `h` is where the rest of the loop ends. -/
theorem ends_migration {m : Migration} {todo : List Migration} {g : Progress} {n : ℕ} {l : List Call} (hn : 1 ≤ n)
    (hrest : Ends registry fails rows n ⟨upLoop { g with report := g.report ++ [(m.version, m.name)] } todo, 1⟩
      (heldAfter fails (l.find? fails))) :
    Ends registry fails rows (n + 5) ⟨.beginTx m todo g, 1⟩ (heldAfter fails ((migrationCalls m ++ l).find? fails)) := by
  cases hbegin : fails (.beginTx m) with
  | true =>
    have hfind : (migrationCalls m ++ l).find? fails = some (.beginTx m) := by
      simp [migrationCalls, hbegin]
    rw [hfind]
    exact .fail rfl hbegin (ends_returned _ _ _)
  | false =>
  refine .ok rfl hbegin ?_
  cases htable : fails (.ensureTableTx m) with
  | true =>
    have hfind : (migrationCalls m ++ l).find? fails = some (.ensureTableTx m) := by
      simp [migrationCalls, hbegin, htable]
    rw [hfind]
    exact .fail rfl htable (ends_returned _ _ _)
  | false =>
  refine .ok rfl htable ?_
  cases hsql : fails (.upSql m) with
  | true =>
    have hfind : (migrationCalls m ++ l).find? fails = some (.upSql m) := by
      simp [migrationCalls, hbegin, htable, hsql]
    rw [hfind]
    exact .fail rfl hsql ((ends_unlock _ _).mono (by omega))
  | false =>
  refine .ok rfl hsql ?_
  cases hinsert : fails (.insert m) with
  | true =>
    have hfind : (migrationCalls m ++ l).find? fails = some (.insert m) := by
      simp [migrationCalls, hbegin, htable, hsql, hinsert]
    rw [hfind]
    exact .fail rfl hinsert ((ends_unlock _ _).mono (by omega))
  | false =>
  refine .ok rfl hinsert ?_
  cases hcommit : fails (.commit m) with
  | true =>
    have hfind : (migrationCalls m ++ l).find? fails = some (.commit m) := by
      simp [migrationCalls, hbegin, htable, hsql, hinsert, hcommit]
    rw [hfind]
    exact .fail rfl hcommit ((ends_unlock _ _).mono hn)
  | false =>
    have hfind : (migrationCalls m ++ l).find? fails = l.find? fails := by
      simp [migrationCalls, hbegin, htable, hsql, hinsert, hcommit]
    rw [hfind]
    exact .ok rfl hcommit hrest

/-- The loop, with the lock taken. -/
theorem ends_loop : ∀ (todo : List Migration) (report : Report),
    Ends registry fails rows (5 * todo.length + 1) ⟨upLoop ⟨rows, report⟩ todo, 1⟩
      (heldAfter fails ((pendingCalls rows todo).find? fails))
  | [], report => ends_unlock report none
  | m :: todo, report => by
    by_cases hm : m.version ∈ rows
    · have hloop : upLoop ⟨rows, report⟩ (m :: todo) = upLoop ⟨rows, report⟩ todo := if_pos hm
      have hcalls : pendingCalls rows (m :: todo) = pendingCalls rows todo := by
        simp [pendingCalls, hm]
      rw [hloop, hcalls]
      exact (ends_loop todo report).mono (by simp only [List.length_cons]; omega)
    · have hloop : upLoop ⟨rows, report⟩ (m :: todo) = .beginTx m todo ⟨rows, report⟩ := if_neg hm
      have hcalls : pendingCalls rows (m :: todo) = migrationCalls m ++ pendingCalls rows todo := by
        simp [pendingCalls, hm]
      have hlen : 5 * (m :: todo).length + 1 = 5 * todo.length + 1 + 5 := by
        rw [List.length_cons]
        omega
      rw [hloop, hcalls, hlen]
      exact ends_migration (by omega) (ends_loop todo _)

/-- A call up to the loop. -/
theorem ends_setup : Ends registry fails rows (5 * registry.length + 5) ⟨.acquire, 0⟩
    (match (calls registry rows).find? fails with
      | some .acquire | some .lock => 0
      | first => heldAfter fails first) := by
  cases hacquire : fails .acquire with
  | true =>
    have hfind : (calls registry rows).find? fails = some .acquire := by
      simp [calls, hacquire]
    rw [hfind]
    exact .fail rfl hacquire (ends_returned _ _ _)
  | false =>
  refine .ok rfl hacquire ?_
  cases hlock : fails .lock with
  | true =>
    have hfind : (calls registry rows).find? fails = some .lock := by
      simp [calls, hacquire, hlock]
    rw [hfind]
    exact .fail rfl hlock (ends_returned _ _ _)
  | false =>
  refine .ok rfl hlock ?_
  cases htable : fails .ensureTable with
  | true =>
    have hfind : (calls registry rows).find? fails = some .ensureTable := by
      simp [calls, hacquire, hlock, htable]
    rw [hfind]
    exact .fail rfl htable (ends_returned _ _ _)
  | false =>
  refine .ok rfl htable ?_
  cases hread : fails .readApplied with
  | true =>
    have hfind : (calls registry rows).find? fails = some .readApplied := by
      simp [calls, hacquire, hlock, htable, hread]
    rw [hfind]
    exact .fail rfl hread (ends_returned _ _ _)
  | false =>
    have hfind : (calls registry rows).find? fails = (pendingCalls rows registry).find? fails := by
      simp [calls, hacquire, hlock, htable, hread]
    have hpending : ∀ c ∈ pendingCalls rows registry, c ≠ .acquire ∧ c ≠ .lock := by
      intro c hc
      obtain ⟨m, -, hm⟩ := List.mem_flatMap.mp hc
      simp only [migrationCalls, List.mem_cons, List.not_mem_nil, or_false] at hm
      rcases hm with rfl | rfl | rfl | rfl | rfl <;> exact ⟨nofun, nofun⟩
    have hheld : (match (pendingCalls rows registry).find? fails with
        | some .acquire | some .lock => 0
        | first => heldAfter fails first) = heldAfter fails ((pendingCalls rows registry).find? fails) := by
      split
      · next hc => exact absurd rfl (hpending _ (List.mem_of_find?_eq_some hc)).1
      · next hc => exact absurd rfl (hpending _ (List.mem_of_find?_eq_some hc)).2
      · rfl
    rw [hfind, hheld]
    exact .ok rfl hread (ends_loop registry [])

variable (registry fails rows)

/-- **A call of `up` always returns**, and its session has given the lock back exactly when `Releases` says so. -/
theorem up_releases_iff : (∃ r, (up registry fails rows).pc = .returned r) ∧
    ((up registry fails rows).held = 0 ↔ Releases registry fails rows) := by
  obtain ⟨r, hr⟩ := @ends_setup registry fails rows
  rw [up, hr, Releases]
  refine ⟨⟨r, rfl⟩, ?_⟩
  dsimp only
  cases (calls registry rows).find? fails with
  | none => simp [heldAfter]
  | some c => cases c <;> simp [heldAfter]

/-- The first `pool.begin` fails on an empty database. -/
theorem failed_begin_holds : ¬ ∀ (fails : Call → Bool) (rows : List ℤ), fails .unlock = false → (up migrations fails rows).held = 0 := by
  intro hall
  exact absurd (hall (fun c => c = .beginTx ⟨20260421000001, "init"⟩) [] rfl) (by decide)

end Alone

end Eddyq.Pg.Migrate
