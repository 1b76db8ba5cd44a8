import Eddyq.Job
import Eddyq.Lib.Elections
import Eddyq.Lib.Rows

/-!
# Leader election on Postgres

`try_elect` is one upsert on the row of the role: first boot, refresh, takeover and refusal are told apart by three CASE
expressions over the old row. `resign` ends the own lease at once. Times are in milliseconds, leases in seconds.
-/

namespace Eddyq.Pg

open Eddyq.Lib

/-- A row of `eddyq_leader`; the role is the primary key. -/
structure LeaderRow where
  role : String
  worker : WorkerId
  expiresAt : ℤ
  electedAt : ℤ
  deriving DecidableEq

/-- `ON CONFLICT (role) DO UPDATE`. -/
def LeaderRow.onConflict (excluded : LeaderRow) (now : ℤ) (x : LeaderRow) : LeaderRow :=
  { x with
    worker := if x.expiresAt < now then excluded.worker else x.worker
    expiresAt :=
      if x.expiresAt < now then excluded.expiresAt
      else if x.worker = excluded.worker then excluded.expiresAt
      else x.expiresAt
    electedAt := if x.expiresAt < now then excluded.electedAt else x.electedAt }

/-- The row of a role. -/
def leader? (t : List LeaderRow) (role : String) : Option LeaderRow := t.find? (fun x => x.role = role)

/-- `leader::try_elect`. -/
def tryElect (t : List LeaderRow) (worker : WorkerId) (role : String) (leaseSecs : ℕ) (now : ℤ) : Bool × List LeaderRow :=
  let excluded : LeaderRow := ⟨role, worker, now + 1000 * leaseSecs, now⟩
  let t' :=
    if (leader? t role).isSome then updateWhere (fun x => x.role = role) (LeaderRow.onConflict excluded now) t
    else t ++ [excluded]
  ((leader? t' role).any (fun x => x.worker = worker), t')

/-- `leader::resign`. -/
def resign (t : List LeaderRow) (worker : WorkerId) (role : String) (now : ℤ) : List LeaderRow :=
  updateWhere (fun x => x.role = role ∧ x.worker = worker) (fun x => { x with expiresAt := now }) t

/-! ## The lease of a role -/

def LeaderRow.tenure (x : LeaderRow) : Tenure WorkerId := ⟨x.worker, x.expiresAt⟩

/-- What the upsert leaves in the row of the role, and the other rows. -/
theorem leader?_tryElect (t : List LeaderRow) (worker : WorkerId) (role : String) (leaseSecs : ℕ) (now : ℤ) (r : String) :
    leader? (tryElect t worker role leaseSecs now).2 r =
      if r = role then
        some (((leader? t role).map (LeaderRow.onConflict ⟨role, worker, now + 1000 * leaseSecs, now⟩ now)).getD
          ⟨role, worker, now + 1000 * leaseSecs, now⟩)
      else leader? t r := by
  simp only [tryElect]
  cases h : leader? t role with
  | some x =>
    have hkey : ∀ y, (LeaderRow.onConflict ⟨role, worker, now + 1000 * leaseSecs, now⟩ now y).role = y.role := fun _ => rfl
    rw [if_pos Option.isSome_some]
    refine (find?_updateWhere hkey role r t).trans ?_
    by_cases hr : r = role
    · subst hr
      rw [if_pos rfl, if_pos rfl]
      exact congrArg (Option.map _) h
    · rw [if_neg hr, if_neg hr]
      rfl
  | none =>
    rw [if_neg (by simp)]
    by_cases hr : r = role
    · subst hr
      rw [if_pos rfl]
      simp only [leader?] at h ⊢
      simp [List.find?_append, h]
    · rw [if_neg hr]
      simp only [leader?, List.find?_append]
      simp [Ne.symm hr]

theorem leader?_resign (t : List LeaderRow) (worker : WorkerId) (role : String) (now : ℤ) (r : String) :
    leader? (resign t worker role now) r =
      if r = role then (leader? t role).map (fun x => if x.worker = worker then { x with expiresAt := now } else x)
      else leader? t r := by
  have hkey : ∀ y : LeaderRow, (if y.worker = worker then { y with expiresAt := now } else y).role = y.role := by
    intro y
    split <;> rfl
  have hsplit : resign t worker role now = updateWhere (fun x => x.role = role)
      (fun x => if x.worker = worker then { x with expiresAt := now } else x) t := by
    refine List.map_congr_left (fun x _ => ?_)
    by_cases hr : x.role = role <;> by_cases hw : x.worker = worker <;> simp [hr, hw]
  rw [hsplit]
  refine (find?_updateWhere hkey role r t).trans ?_
  by_cases hr : r = role
  · subst hr
    rfl
  · rw [if_neg hr, if_neg hr]
    rfl

/-- The row of a conflict goes to the new worker when it has expired, and is refreshed when it is its own. -/
theorem LeaderRow.tenure_onConflict (excluded : LeaderRow) (now : ℤ) (x : LeaderRow) :
    (x.expiresAt < now ∨ x.worker = excluded.worker) ∧ (excluded.onConflict now x).tenure = excluded.tenure ∨
    ¬ x.expiresAt < now ∧ x.worker ≠ excluded.worker ∧ (excluded.onConflict now x).tenure = x.tenure := by
  by_cases hlt : x.expiresAt < now
  · exact .inl ⟨.inl hlt, by simp [onConflict, tenure, hlt]⟩
  · by_cases hw : x.worker = excluded.worker
    · exact .inl ⟨.inr hw, by simp [onConflict, tenure, hlt, hw]⟩
    · exact .inr ⟨hlt, hw, by simp [onConflict, tenure, hlt, hw]⟩

/-- First boot, takeover and refresh win; the lease of another worker that has not ended is kept. -/
theorem tryElect_cases (t : List LeaderRow) (worker : WorkerId) (role : String) (leaseSecs : ℕ) (now : ℤ) :
    ((tryElect t worker role leaseSecs now).1 = true ∧
      (∀ x, leader? t role = some x → x.worker = worker ∨ x.expiresAt < now) ∧
      (leader? (tryElect t worker role leaseSecs now).2 role).map LeaderRow.tenure =
        some ⟨worker, now + 1000 * leaseSecs⟩) ∨
    ((tryElect t worker role leaseSecs now).1 = false ∧
      (∃ x, leader? t role = some x ∧ x.worker ≠ worker ∧ ¬ x.expiresAt < now) ∧
      (leader? (tryElect t worker role leaseSecs now).2 role).map LeaderRow.tenure =
        (leader? t role).map LeaderRow.tenure) := by
  have hreply : (tryElect t worker role leaseSecs now).1 =
      (leader? (tryElect t worker role leaseSecs now).2 role).any (fun x => x.worker = worker) := rfl
  rw [hreply, leader?_tryElect, if_pos rfl]
  cases h : leader? t role with
  | none => exact .inl ⟨by simp, fun _ hx => (nomatch hx), rfl⟩
  | some x =>
    rcases LeaderRow.tenure_onConflict ⟨role, worker, now + 1000 * leaseSecs, now⟩ now x with ⟨hfree, hx⟩ | ⟨hlt, hw, hx⟩
    · refine .inl ⟨?_, ?_, congrArg some hx⟩
      · simpa [LeaderRow.tenure] using congrArg Tenure.worker hx
      · rintro y hy
        cases hy
        exact hfree.symm
    · refine .inr ⟨?_, ⟨x, rfl, hw, hlt⟩, congrArg some hx⟩
      have hworker := congrArg Tenure.worker hx
      simp only [LeaderRow.tenure] at hworker
      simpa [hworker] using hw

/-- The leases of Postgres. One that has ended may be taken only later than its end. -/
def electorate : Electorate (List LeaderRow) String WorkerId where
  row t role := (leader? t role).map LeaderRow.tenure
  free d := 0 < d
  span l := 1000 * l
  elect t role w l now := ((tryElect t w role l now).1, (tryElect t w role l now).2)
  resign t role w now := resign t w role now
  not_free _ h := by omega
  free_mono h h' := by omega
  won := by
    intro t r w l now t' h
    obtain ⟨hwon, rfl⟩ := Prod.mk.inj h
    rcases tryElect_cases t w r l now with ⟨_, hpre, hrow⟩ | ⟨hlost, _⟩
    · refine ⟨?_, fun _ => by rw [hrow]; push_cast; rfl, fun r' hr => by rw [leader?_tryElect, if_neg hr]⟩
      intro x hx
      obtain ⟨y, hy, rfl⟩ := Option.map_eq_some_iff.mp hx
      rcases hpre y hy with h | h
      · exact .inl h
      · exact .inr (sub_pos.mpr h)
    · rw [hlost] at hwon
      cases hwon
  not_won := by
    intro t r w l now o t' h ho
    obtain ⟨rfl, rfl⟩ := Prod.mk.inj h
    rcases tryElect_cases t w r l now with ⟨hwon, _⟩ | ⟨_, ⟨y, hy, hne, _⟩, hrow⟩
    · exact absurd (congrArg some hwon) ho
    · constructor
      · funext r'
        by_cases hr : r' = r
        · subst hr
          exact hrow
        · rw [leader?_tryElect, if_neg hr]
      · intro x hx hw
        rw [hy] at hx
        cases hx
        exact absurd hw hne
  resigned := by
    intro t r w now
    constructor
    · intro x hx hne
      obtain ⟨y, hy, rfl⟩ := Option.map_eq_some_iff.mp hx
      rw [leader?_resign, if_pos rfl, hy]
      simp only [Option.map_some, LeaderRow.tenure] at hne ⊢
      rw [if_neg hne]
    · intro r' hr
      rw [leader?_resign, if_neg hr]

theorem electorate_prompt : electorate.Prompt where
  free_pos _ hd := hd
  refused := by
    intro t r w l now t' h
    obtain ⟨hlost, rfl⟩ := Prod.mk.inj h
    rcases tryElect_cases t w r l now with ⟨hwon, _⟩ | ⟨_, ⟨x, hx, _, hlive⟩, _⟩
    · exact nomatch (Option.some.inj hlost).symm.trans hwon
    · exact ⟨x.tenure, congrArg (Option.map LeaderRow.tenure) hx, fun h => hlive (sub_pos.mp h)⟩
  yields := by
    intro t r w now x hx
    obtain ⟨y, hy, rfl⟩ := Option.map_eq_some_iff.mp hx
    have hy : leader? (resign t w r now) r = some y := hy
    rw [leader?_resign, if_pos rfl] at hy
    obtain ⟨z, hz, rfl⟩ := Option.map_eq_some_iff.mp hy
    by_cases hw : z.worker = w
    · right
      rw [if_pos hw]
      exact le_rfl
    · left
      rw [if_neg hw]
      exact congrArg (Option.map LeaderRow.tenure) hz

end Eddyq.Pg
