import Eddyq.Lib.Rows
import Eddyq.Job
import Mathlib.Data.Set.Card

/-!
# Listing jobs

The filters, the pages and the rows of `stats.rs`, and its `list_jobs`, which asks Postgres. The active filters AND
together (`ListJobsFilter.Accepts`). What a listing owes its caller does not depend on the backend (`Answers`); the
listing of a table meets it (`listJobs_answers`).

Times are nanoseconds since the epoch here. The JSON columns of a row (payload, result, errors and metadata) are left out.
-/

namespace Eddyq

/-- The text of a state. -/
def JobState.asStr : JobState → String
  | .pending => "pending"
  | .scheduled => "scheduled"
  | .running => "running"
  | .completed => "completed"
  | .failed => "failed"
  | .cancelled => "cancelled"

theorem JobState.asStr_inj {st st' : JobState} (h : st.asStr = st'.asStr) : st = st' := by
  cases st <;> cases st' <;> first | rfl | exact absurd h (by decide)

namespace Stats

open Eddyq.Lib

/-! ## Requests and rows -/

/-- `ListJobsFilter`; a filter that is not set constrains nothing. -/
structure ListJobsFilter where
  queue : Option String := none
  state : Option JobState := none
  kind : Option String := none
  groupKey : Option String := none
  tag : Option String := none
  id : Option JobId := none
  beforeCreatedAt : Option ℤ := none

/-- `Pagination`. -/
structure Pagination where
  limit : ℤ := 50
  offset : ℤ := 0

/-- `JobRow`. -/
structure JobRow where
  id : JobId
  queue : String
  kind : String
  state : String
  priority : ℤ
  attempt : ℤ
  maxAttempts : ℤ
  scheduledAt : ℤ
  createdAt : ℤ
  finalizedAt : Option ℤ
  groupKey : Option String
  tags : List String
  deriving DecidableEq

/-- `JobList`. -/
structure JobList where
  total : ℤ
  rows : List JobRow

/-- `MAX_LIMIT`. -/
def maxLimit : ℤ := 500

/-- `pagination.limit.clamp(1, MAX_LIMIT)`. -/
def Pagination.pageSize (p : Pagination) : Nat := (max 1 (min p.limit maxLimit)).toNat

/-- `pagination.offset.max(0)`. -/
def Pagination.skipped (p : Pagination) : Nat := (max p.offset 0).toNat

theorem Pagination.pageSize_pos (p : Pagination) : 0 < p.pageSize := by
  unfold pageSize
  omega

theorem Pagination.pageSize_le (p : Pagination) : p.pageSize ≤ 500 := by
  unfold pageSize maxLimit
  omega

/-- `push_filters`: the condition on a row. -/
def ListJobsFilter.Accepts (f : ListJobsFilter) (r : JobRow) : Prop :=
  (∀ i ∈ f.id, r.id = i) ∧ (∀ q ∈ f.queue, r.queue = q) ∧ (∀ st ∈ f.state, r.state = st.asStr) ∧
    (∀ k ∈ f.kind, r.kind = k) ∧ (∀ g ∈ f.groupKey, r.groupKey = some g) ∧ (∀ t ∈ f.tag, t ∈ r.tags) ∧
    ∀ before ∈ f.beforeCreatedAt, r.createdAt < before

instance (f : ListJobsFilter) : DecidablePred f.Accepts := fun _ => inferInstanceAs (Decidable (_ ∧ _))

/-- `list_jobs`: count, then the page by `id DESC`. -/
def listJobs (table : List JobRow) (f : ListJobsFilter) (p : Pagination) : JobList :=
  let matching := table.filter (fun r => f.Accepts r)
  { total := matching.length
    rows := ((orderBy (fun r r' => r'.id ≤ r.id) matching).drop p.skipped).take p.pageSize }

/-! ## What a listing owes its caller -/

/-- The jobs that pass all filters. -/
def ListJobsFilter.matching (f : ListJobsFilter) (jobs : Set JobRow) : Set JobRow := {r | r ∈ jobs ∧ f.Accepts r}

/-- **The contract**: the rows are jobs that pass all filters, the total is the number of these, and no page before
that number is empty. -/
structure Answers (jobs : Set JobRow) (f : ListJobsFilter) (p : Pagination) (out : JobList) : Prop where
  rows : ∀ r ∈ out.rows, r ∈ f.matching jobs
  total : out.total = (f.matching jobs).ncard
  page : out.rows = [] → (f.matching jobs).ncard ≤ p.skipped

section Answers

variable {jobs : Set JobRow} {f : ListJobsFilter} {p : Pagination}

theorem ncard_list {l : List JobRow} (h : l.Nodup) : {r | r ∈ l}.ncard = l.length := by
  have hset : {r | r ∈ l} = (l.toFinset : Set JobRow) := by
    ext r
    simp
  rw [hset, Set.ncard_coe_finset, List.toFinset_card_of_nodup h]

/-- **A listing that counts a pool and pages through it**: if no job that passes the filters is outside the pool, it
answers exactly when no job of the pool is excluded. -/
theorem answers_iff_of_pool {out : JobList} {pool page : List JobRow} (hnodup : pool.Nodup)
    (hjobs : ∀ r ∈ pool, r ∈ jobs) (hall : ∀ r ∈ jobs, f.Accepts r → r ∈ pool) (htotal : out.total = pool.length)
    (hrows : (∀ r ∈ pool, f.Accepts r) → out.rows = page) (hpage : ∀ r ∈ page, r ∈ pool)
    (hempty : page = [] → pool.length ≤ p.skipped) :
    Answers jobs f p out ↔ ∀ r ∈ pool, f.Accepts r := by
  have hsub : f.matching jobs ⊆ {r | r ∈ pool} := fun r hr => hall r hr.1 hr.2
  constructor
  · intro h r hr
    have hle : {r | r ∈ pool}.ncard ≤ (f.matching jobs).ncard := by
      rw [ncard_list hnodup]
      have := h.total.symm.trans htotal
      omega
    have hsame := Set.eq_of_subset_of_ncard_le hsub hle (List.finite_toSet pool)
    have hin : r ∈ f.matching jobs := hsame ▸ hr
    exact hin.2
  · intro hacc
    have hsame : f.matching jobs = {r | r ∈ pool} :=
      Set.Subset.antisymm hsub fun r hr => ⟨hjobs r hr, hacc r hr⟩
    refine ⟨fun r hr => ?_, ?_, fun hnil => ?_⟩
    · rw [hrows hacc] at hr
      rw [hsame]
      exact hpage r hr
    · rw [hsame, ncard_list hnodup, htotal]
    · rw [hsame, ncard_list hnodup]
      exact hempty (hrows hacc ▸ hnil)

/-- An empty page is past the end. -/
theorem page_eq_nil {α : Type*} {l : List α} (h : (l.drop p.skipped).take p.pageSize = []) : l.length ≤ p.skipped := by
  have hpos := p.pageSize_pos
  rcases List.take_eq_nil_iff.mp h with h | h
  · omega
  · exact List.drop_eq_nil_iff.mp h

/-- **The listing of a table answers.** -/
theorem listJobs_answers {table : List JobRow} (h : table.Nodup) : Answers {r | r ∈ table} f p (listJobs table f p) := by
  have hperm := perm_orderBy (fun r r' : JobRow => r'.id ≤ r.id) (table.filter (fun r => f.Accepts r))
  have hmem : ∀ r, r ∈ orderBy (fun r r' : JobRow => r'.id ≤ r.id) (table.filter (fun r => f.Accepts r)) ↔
      r ∈ table ∧ f.Accepts r := by
    intro r
    rw [hperm.mem_iff, List.mem_filter, decide_eq_true_iff]
  refine (answers_iff_of_pool (hperm.nodup_iff.mpr (h.filter _)) (fun r hr => ((hmem r).mp hr).1)
    (fun r hr hacc => (hmem r).mpr ⟨hr, hacc⟩) ?_ (fun _ => rfl)
    (fun r hr => List.mem_of_mem_drop (List.mem_of_mem_take hr)) page_eq_nil).mpr fun r hr => ((hmem r).mp hr).2
  rw [hperm.length_eq]
  rfl

end Answers

end Stats

end Eddyq
