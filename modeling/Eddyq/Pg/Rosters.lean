import Eddyq.Lib.Rosters
import Eddyq.Pg.Leases

/-!
# Lists of leases on Postgres

`update_heartbeat_batch` and `reclaim_in_flight` take a list of ids and look at `state = 'running'`, not at `worker_id`.
They leave every row alone that is not listed or not running (`registry_lawful`), so whose lease they touch is decided by
where the list comes from.
-/

namespace Eddyq.Pg

open Eddyq.Lib

/-- What a process does with a list of ids. -/
inductive Touch
  | heartbeat (now : ℤ)
  | reclaim (now : ℤ)

def Touch.toOp (ids : List JobId) : Touch → Op
  | .heartbeat now => .heartbeat ids now
  | .reclaim now => .reclaimInFlight ids now

/-- The row is running, under this worker. -/
def Db.leaseOf (db : Db) (id : JobId) (o : Option WorkerId) : Prop :=
  ∃ j ∈ db.jobs, j.id = id ∧ j.running ∧ j.workerId = o

instance (db : Db) (id : JobId) (o : Option WorkerId) : Decidable (db.leaseOf id o) :=
  inferInstanceAs (Decidable (∃ j ∈ db.jobs, j.id = id ∧ j.running ∧ j.workerId = o))

/-- The row is still there, with all its columns. -/
def Db.sameRow (db db' : Db) (id : JobId) : Prop := ∀ j ∈ db.jobs, j.id = id → j ∈ db'.jobs

/-- The backend as a registry. -/
def registry (cron : Cron) : Registry Db Op Touch JobId WorkerId where
  call db op := op.apply cron db
  grants db op := op.grants db
  touch db t ids := (t.toOp ids).apply cron db
  leased := Db.leaseOf
  same := Db.sameRow

section Laws

variable {cron : Cron} {db db' : Db} {id : JobId} {o : Option WorkerId} {w : WorkerId}

theorem LeasesKept.leaseOf (h : LeasesKept db db') (hl : db'.leaseOf id o) : db.leaseOf id o := by
  obtain ⟨j', hj', hid', hr', hw'⟩ := hl
  obtain ⟨j, hj, hr, hid, hw⟩ := h j' hj' hr'
  exact ⟨j, hj, hid.trans hid', hr, hw.trans hw'⟩

/-- No row is lost when a request is worked off. -/
theorem Grows.keeps (h : Grows db db') : ∀ j ∈ db.jobs, j ∈ db'.jobs := by
  induction h with
  | refl => exact fun _ hj => hj
  | tail _ hs ih =>
    refine fun j hj => ?_
    have hj := ih j hj
    cases hs with
    | insert hi => cases hi with
      | row => exact List.mem_append_left _ hj
      | skip => exact hj
    | materialize hm => cases hm <;> exact hj
    | batches => exact hj

/-- A lease after a call was granted by it or has been there. -/
theorem Op.leases_kept (op : Op) (hl : (op.apply cron db).leaseOf id o) :
    (∃ w, o = some w ∧ (id, w) ∈ op.grants db) ∨ (db.leaseOf id o ∧ ∀ w, (id, w) ∉ op.grants db) := by
  by_cases hop : ∃ a now clock order, op = .claim a now clock order
  · obtain ⟨a, now, clock, order, rfl⟩ := hop
    rcases claim_grants db a now clock order with ⟨hnil, hsame⟩ | ⟨ids, hids, hjobs⟩
    · have hl : (claimBatch db a now clock order).1.leaseOf id o := hl
      rw [hsame] at hl
      rw [hnil]
      exact Or.inr ⟨hl, fun _ => List.not_mem_nil⟩
    · obtain ⟨j', hj', hid, hr, hw⟩ := hl
      have hj' : j' ∈ (claimBatch db a now clock order).1.jobs := hj'
      rw [hjobs] at hj'
      obtain ⟨j, hj, rfl⟩ := mem_updateWhere.mp hj'
      by_cases hin : j.id ∈ ids
      · have hstart : (if decide (j.id ∈ ids) = true then j.start a.worker now else j) = j.start a.worker now :=
          if_pos (decide_eq_true hin)
        rw [hstart] at hid hw
        refine Or.inl ⟨a.worker, hw.symm, ?_⟩
        rw [hids]
        exact List.mem_map.mpr ⟨j, List.mem_filter.mpr ⟨hj, decide_eq_true hin⟩, by rw [← hid]; rfl⟩
      · have hsame : (if decide (j.id ∈ ids) = true then j.start a.worker now else j) = j :=
          if_neg (fun h => hin (of_decide_eq_true h))
        rw [hsame] at hid hr hw
        refine Or.inr ⟨⟨j, hj, hid, hr, hw⟩, fun w hg => ?_⟩
        rw [hids] at hg
        obtain ⟨i, hi, he⟩ := List.mem_map.mp hg
        have hi' := of_decide_eq_true (List.mem_filter.mp hi).2
        cases he
        exact hin (hid ▸ hi')
  · have hno : ∀ a now clock order, op ≠ .claim a now clock order :=
      fun a now clock order he => hop ⟨a, now, clock, order, he⟩
    refine Or.inr ⟨(Op.leasesKept cron db op hno).leaseOf hl, fun w hg => ?_⟩
    cases op with
    | claim a now clock order => exact hno a now clock order rfl
    | _ => exact absurd hg List.not_mem_nil

/-- A claim grants to its own worker. -/
theorem Op.grants_one (op : Op) {w' : WorkerId} (h : (id, w) ∈ op.grants db) (h' : (id, w') ∈ op.grants db) : w = w' := by
  cases op with
  | claim a now clock order =>
    rcases claim_grants db a now clock order with ⟨hnil, _⟩ | ⟨ids, hids, _⟩
    · rw [hnil] at h
      exact absurd h List.not_mem_nil
    · rw [hids] at h h'
      obtain ⟨_, _, he⟩ := List.mem_map.mp h
      obtain ⟨_, _, he'⟩ := List.mem_map.mp h'
      exact (Prod.mk.inj he).2.symm.trans (Prod.mk.inj he').2
  | _ => exact absurd h List.not_mem_nil

/-- A row that is not listed, or not running, stays as it is. -/
theorem Touch.frame (t : Touch) {ids : List JobId} (h : id ∈ ids → ∀ o, ¬ db.leaseOf id o) :
    db.sameRow ((t.toOp ids).apply cron db) id := by
  intro j hj hid
  have hidle : ¬ (id ∈ ids ∧ j.running) := fun hr => h hr.1 j.workerId ⟨j, hj, hid, hr.2, rfl⟩
  cases t with
  | heartbeat now =>
    have hm := mem_updateWhere_of_mem (p := fun j : JobRow => j.id ∈ ids && j.running)
      (f := fun j => { j with heartbeatAt := some now }) hj
    rw [if_neg (by simpa [hid] using hidle)] at hm
    exact hm
  | reclaim now =>
    refine commitFst_inv (P := fun db' : Db => j ∈ db'.jobs) hj (fun db' n he => ?_)
    unfold reclaimInFlight at he
    split at he
    · cases he
      exact hj
    · obtain ⟨db₁, hu, he⟩ := bind_eq_ok he
      obtain ⟨db₂, hf, he⟩ := bind_eq_ok he
      cases he
      refine (fireAll_grows hf).keeps j ((updateBatches_grows hu).keeps j ?_)
      have hm := mem_updateWhere_of_mem (p := fun j : JobRow => j.running && decide (j.id ∈ ids))
        (f := fun j => j.recover (reclaimEntry now) now) hj
      rw [if_neg (by simpa [hid, and_comm] using hidle)] at hm
      exact hm

/-- A heartbeat shows on every running row of its list. -/
theorem Touch.stirs {ids : List JobId} (hid : id ∈ ids) (hl : db.leaseOf id o) :
    ∃ t : Touch, ¬ db.sameRow ((t.toOp ids).apply cron db) id := by
  obtain ⟨j, hj, hjid, hr, _⟩ := hl
  obtain ⟨now, hnow⟩ : ∃ now : ℤ, j.heartbeatAt ≠ some now := by
    cases hh : j.heartbeatAt with
    | none => exact ⟨0, nofun⟩
    | some t => exact ⟨t + 1, by simp⟩
  refine ⟨.heartbeat now, fun hsame => ?_⟩
  have hm : j ∈ updateWhere (fun j => j.id ∈ ids && j.running) (fun j => { j with heartbeatAt := some now }) db.jobs :=
    hsame j hj hjid
  obtain ⟨j₀, _, he⟩ := mem_updateWhere.mp hm
  split at he
  · exact hnow (congrArg JobRow.heartbeatAt he).symm
  · next hno =>
    subst he
    exact hno (by simp [hjid, hid, hr])

/-- **Postgres is a lawful registry.** -/
theorem registry_lawful (cron : Cron) : (registry cron).Lawful where
  granted := by
    intro db op id w hg
    obtain ⟨j, hj, hl⟩ : (op.apply cron db).LeasedTo id w := Op.granted cron hg
    simp only [JobRow.leasedTo, Bool.and_eq_true, decide_eq_true_eq] at hl
    exact ⟨j, hj, hl.1.1, hl.1.2, hl.2⟩
  kept hl := Op.leases_kept _ hl
  one h h' := Op.grants_one _ h h'
  touched := by
    intro db t ids id o hl
    refine (Op.leasesKept cron db (t.toOp ids) fun a now clock order => ?_).leaseOf hl
    cases t <;> rintro ⟨⟩
  frame h := Touch.frame _ h
  stirs h hl := Touch.stirs h hl

end Laws

end Eddyq.Pg
