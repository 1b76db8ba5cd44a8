import Eddyq.Lib.Pages
import Eddyq.Redis.Listing
import Mathlib.Data.Finset.Max

/-!
# The dashboard's listing of both backends

`WakeboardService.listJobs` asks every backend for its first rows older than a cursor, merges them by the text of
`createdAt` and keeps one page; the reader passes the oldest `createdAt` of a page as the next cursor. Postgres delivers
the rows with the largest ids, Redis cuts its pool before it looks at the cursor. So a reader sees every job once, newest
first, exactly under the conditions of `follow_complete_iff`.

`chrono` and the collation of the JavaScript engine are outside: `Texts` stands for them, `Texts.Lawful` is what the code
relies on.
-/

namespace Eddyq.Dashboard

open Eddyq.Lib Stats

/-! ## Texts of instants -/

/-- `to_rfc3339`, `parse_from_rfc3339` and `localeCompare`. -/
structure Texts where
  toRfc3339 : ℤ → String
  parseFromRfc3339 : String → Option ℤ
  localeCompare : String → String → ℤ

/-- The years 0 to 9999, which have four digits. -/
def Dated (t : ℤ) : Prop := -62167219200 * 10 ^ 9 ≤ t ∧ t < 253402300800 * 10 ^ 9

instance : DecidablePred Dated := fun _ => inferInstanceAs (Decidable (_ ∧ _))

/-- An instant is read back from its text, `localeCompare` is an order, and no two of these texts are equal to it. -/
structure Texts.Lawful (T : Texts) : Prop where
  parse : ∀ t, Dated t → T.parseFromRfc3339 (T.toRfc3339 t) = some t
  total : ∀ a b, T.localeCompare a b ≤ 0 ∨ T.localeCompare b a ≤ 0
  trans : ∀ a b c, T.localeCompare a b ≤ 0 → T.localeCompare b c ≤ 0 → T.localeCompare a c ≤ 0
  equal : ∀ t t', Dated t → Dated t' → T.localeCompare (T.toRfc3339 t) (T.toRfc3339 t') ≤ 0 →
    T.localeCompare (T.toRfc3339 t') (T.toRfc3339 t) ≤ 0 → T.toRfc3339 t = T.toRfc3339 t'

/-! ## The bindings -/

/-- `ListJobsFilter` of the bindings. -/
structure ListJobsFilter where
  queue : Option String := none
  state : Option String := none
  kind : Option String := none
  groupKey : Option String := none
  tag : Option String := none
  id : Option JobId := none
  beforeCreatedAt : Option String := none

/-- `Pagination` of the bindings. -/
structure Pagination where
  limit : Option ℤ := none
  offset : Option ℤ := none

/-- What a backend answers. -/
abbrev Lister := Stats.ListJobsFilter → Stats.Pagination → JobList

/-- `do_list_jobs`; `none` for a state that does not exist. A cursor that is no time is dropped. -/
def doListJobs (T : Texts) (list : Lister) (f : ListJobsFilter) (p : Pagination) : Option JobList :=
  let run (state : Option JobState) :=
    list { queue := f.queue, state := state, kind := f.kind, groupKey := f.groupKey, tag := f.tag, id := f.id,
           beforeCreatedAt := f.beforeCreatedAt.bind T.parseFromRfc3339 }
      { limit := p.limit.getD 50, offset := p.offset.getD 0 }
  match f.state with
  | none => some (run none)
  | some text => (Redis.parseState text).map fun st => run (some st)

/-- `BackendKind`. -/
inductive BackendKind
  | pg
  | redis

/-- `EddyqApp`: the backends that are configured, and the route of a queue. -/
structure App where
  pg : Option (List JobRow) := none
  redis : Option Redis.Store := none
  pick : String → BackendKind := fun _ => .pg
  now : ℤ := 0

namespace App

/-- `pg_ref` and `redis_ref`. -/
def backend (app : App) : BackendKind → Option Lister
  | .pg => app.pg.map Stats.listJobs
  | .redis => app.redis.map fun s => Redis.listJobs s app.now

/-- `list_jobs_for`. -/
def listJobsFor (T : Texts) (app : App) (provider : BackendKind) (f : ListJobsFilter) (p : Pagination) : Option JobList :=
  (app.backend provider).bind fun list => doListJobs T list f p

/-- `list_jobs`. -/
def listJobs (T : Texts) (app : App) (f : ListJobsFilter) (p : Pagination) : Option JobList :=
  app.listJobsFor T (app.pick (f.queue.getD "default")) f p

/-- `providers`. -/
def providers (app : App) : List BackendKind :=
  (if app.pg.isSome then [.pg] else []) ++ (if app.redis.isSome then [.redis] else [])

end App

/-! ## The service -/

/-- The sort of the merge: `b.createdAt.localeCompare(a.createdAt)`. -/
def mergeLe (T : Texts) (a b : JobRow) : Bool :=
  T.localeCompare (T.toRfc3339 b.createdAt) (T.toRfc3339 a.createdAt) ≤ 0

/-- `slice(0, n)`. -/
def slice0 (n : ℤ) (l : List JobRow) : List JobRow :=
  if 0 ≤ n then l.take n.toNat else l.take (l.length - (-n).toNat)

/-- `WakeboardService.listJobs` of an app with several backends. -/
def listJobs (T : Texts) (app : App) (f : ListJobsFilter) (p : Pagination) (provider : Option BackendKind) :
    Option JobList :=
  match provider with
  | some provider => app.listJobsFor T provider f p
  | none =>
    if f.queue.getD "" ≠ "" then app.listJobs T f p
    else
      let limit := p.limit.getD 50
      (app.providers.mapM fun b => app.listJobsFor T b f { limit := some limit, offset := some 0 }).map fun parts =>
        { total := (parts.map JobList.total).sum
          rows := slice0 limit (orderBy (mergeLe T) (parts.flatMap JobList.rows)) }

/-! ## The reader -/

/-- The rows of the page at a cursor. -/
def pageRows (T : Texts) (app : App) (limit : ℤ) (c : Option ℤ) : List JobRow :=
  ((listJobs T app { beforeCreatedAt := c.map T.toRfc3339 } { limit := some limit, offset := some 0 } none).map
    JobList.rows).getD []

/-- Page after page from the first one on, with the smallest `createdAt` of each as the next cursor. -/
def follow (T : Texts) (app : App) (limit : ℤ) (fuel : Nat) : Option (List JobRow) :=
  walk (pageRows T app limit) JobRow.createdAt fuel none

/-! ## The statement -/

/-- Every job once, newest first. -/
structure Complete (jobs : Set JobRow) (out : List JobRow) : Prop where
  mem : ∀ r, r ∈ out ↔ r ∈ jobs
  newest : Newest JobRow.createdAt out

/-- Both backends are configured. -/
def bothApp (table : List JobRow) (s : Redis.Store) (pick : String → BackendKind) (now : ℤ) : App where
  pg := some table
  redis := some s
  pick := pick
  now := now

/-- The jobs of both. -/
def allJobs (table : List JobRow) (s : Redis.Store) (now : ℤ) : Set JobRow := {r | r ∈ table ∨ r ∈ s.jobRows now}

/-- No two jobs have one `createdAt`. -/
structure Distinct (table : List JobRow) (s : Redis.Store) (now : ℤ) : Prop where
  surveyed : s.Surveyed
  primary : (table.map JobRow.id).Nodup
  pg : (table.map JobRow.createdAt).Nodup
  redis : ∀ r ∈ s.jobRows now, ∀ r' ∈ s.jobRows now, r.createdAt = r'.createdAt → r = r'
  apart : ∀ r ∈ table, ∀ r' ∈ s.jobRows now, r.createdAt ≠ r'.createdAt
  dated : ∀ r ∈ allJobs table s now, Dated r.createdAt

/-- How many rows a backend delivers at most. -/
def cap (limit : ℤ) : Nat := Stats.Pagination.pageSize { limit := limit }

/-- The rows of a list with the jobs of both backends that they deliver: those of Redis, and those of Postgres with the
largest ids. -/
def delivered (table : List JobRow) (n : Nat) (l : List JobRow) (r : JobRow) : Bool :=
  r ∈ table → l.countP (fun r' => r' ∈ table ∧ r.id < r'.id) < n

/-- The length of a page. -/
def pageLength (table : List JobRow) (limit : Nat) (l : List JobRow) : Nat :=
  min limit (l.countP (delivered table (cap limit) l))

/-- The rows of the front are delivered, and their texts come after those of the older rows. -/
def PageOk (T : Texts) (table : List JobRow) (limit : Nat) (l : List JobRow) : Prop :=
  ∀ r ∈ l.take (pageLength table limit l), delivered table (cap limit) l r = true ∧
    ∀ r' ∈ l, delivered table (cap limit) l r' = true → r'.createdAt < r.createdAt →
      0 < T.localeCompare (T.toRfc3339 r.createdAt) (T.toRfc3339 r'.createdAt)

/-- The jobs of both, newest first. -/
def newestFirst (table : List JobRow) (s : Redis.Store) (now : ℤ) : List JobRow :=
  orderBy (fun r r' => r'.createdAt ≤ r.createdAt) (table ++ Redis.rowsOf s now (Redis.pool s none ""))

/-! ## A page -/

section Page

variable {T : Texts} {table : List JobRow} {s : Redis.Store} {now : ℤ} {pick : String → BackendKind} {limit : Nat}

theorem cap_pos (limit : ℤ) : 0 < cap limit := Stats.Pagination.pageSize_pos _

theorem cap_le (limit : ℤ) : cap limit ≤ 500 := Stats.Pagination.pageSize_le _

/-- A filter with nothing but a cursor. -/
theorem accepts_cursor (c : Option ℤ) (r : JobRow) :
    ({ beforeCreatedAt := c } : Stats.ListJobsFilter).Accepts r ↔ ∀ k ∈ c, r.createdAt < k := by
  simp [Stats.ListJobsFilter.Accepts]

/-- What Postgres delivers. -/
def pgRows (table : List JobRow) (limit : Nat) (c : Option ℤ) : List JobRow :=
  (orderBy (fun r r' => r'.id ≤ r.id) (below JobRow.createdAt c table)).take (cap limit)

/-- The rows of Redis in the order of its pool. -/
def redisAll (s : Redis.Store) (now : ℤ) : List JobRow := Redis.rowsOf s now (Redis.pool s none "")

/-- What Redis delivers. -/
def redisRows (s : Redis.Store) (now : ℤ) (limit : Nat) (c : Option ℤ) : List JobRow :=
  below JobRow.createdAt c ((redisAll s now).take (cap limit))

theorem listJobs_pgRows (table : List JobRow) (limit : Nat) (c : Option ℤ) :
    (Stats.listJobs table { beforeCreatedAt := c } { limit := limit, offset := 0 }).rows = pgRows table limit c := by
  have hfilter : table.filter (fun r => ({ beforeCreatedAt := c } : Stats.ListJobsFilter).Accepts r) =
      below JobRow.createdAt c table :=
    List.filter_congr fun r _ => decide_eq_decide.mpr (accepts_cursor c r)
  rw [Stats.listJobs, hfilter]
  rfl

theorem listJobs_redisRows (hs : s.Surveyed) (limit : Nat) (c : Option ℤ) :
    (Redis.listJobs s now { beforeCreatedAt := c } { limit := limit, offset := 0 }).rows = redisRows s now limit c := by
  have hkeep : Redis.onQueue s none "" = fun _ => true := rfl
  have hpage : ∀ id ∈ (Redis.pool s none "").take (cap limit), (s.job id).isSome :=
    fun id hid => hs.pool_hashed id (List.mem_of_mem_take hid)
  have hmatch : ∀ r, Redis.filterMatches { beforeCreatedAt := c } r = decide (∀ k ∈ c, r.createdAt < k) := by
    intro r
    simp [Redis.filterMatches]
  have hreply : Redis.fnListJobs s none "" 0 (cap limit) =
      ((Redis.pool s none "").length, (Redis.pool s none "").take (cap limit)) := by
    rw [Redis.fnListJobs_eq s none "" 0 (cap_pos limit) (cap_le limit), hkeep,
      List.filter_true, List.drop_zero]
  have hrows : Redis.rowsOf s now ((Redis.pool s none "").take (cap limit)) = (redisAll s now).take (cap limit) := by
    rw [redisAll, Redis.rowsOf_eq_map hs.pool_hashed, Redis.rowsOf_eq_map hpage, List.map_take]
  have hlist : (Redis.listJobs s now { beforeCreatedAt := c } { limit := limit, offset := 0 }).rows =
      (Redis.rowsOf s now (Redis.fnListJobs s none "" 0 (cap limit)).2).filter
        (Redis.filterMatches { beforeCreatedAt := c }) := rfl
  rw [hlist, hreply, hrows, redisRows, below]
  exact List.filter_congr fun r _ => hmatch r

/-- **A page** is the front of the merge of what both deliver. -/
theorem pageRows_eq (hs : s.Surveyed) {c c' : Option ℤ} (hc : (c.map T.toRfc3339).bind T.parseFromRfc3339 = c') :
    pageRows T (bothApp table s pick now) limit c =
      (orderBy (mergeLe T) (pgRows table limit c' ++ redisRows s now limit c')).take limit := by
  have hparts : pageRows T (bothApp table s pick now) limit c =
      slice0 limit (orderBy (mergeLe T) ([Stats.listJobs table { beforeCreatedAt := (c.map T.toRfc3339).bind T.parseFromRfc3339 }
          { limit := limit, offset := 0 },
        Redis.listJobs s now { beforeCreatedAt := (c.map T.toRfc3339).bind T.parseFromRfc3339 }
          { limit := limit, offset := 0 }].flatMap JobList.rows)) := rfl
  rw [hparts, hc, List.flatMap_cons, List.flatMap_singleton, listJobs_pgRows, listJobs_redisRows hs, slice0,
    if_pos (Int.natCast_nonneg limit), Int.toNat_natCast]

end Page

/-! ## The whole reading -/

section Reading

variable {T : Texts} {table : List JobRow} {s : Redis.Store} {now : ℤ} {pick : String → BackendKind} {limit : Nat}

/-- The pool of a listing without filters has all jobs. -/
theorem mem_redisAll (hs : s.Surveyed) {r : JobRow} : r ∈ redisAll s now ↔ r ∈ s.jobRows now := by
  have hcounted : r ∈ Redis.rowsOf s now (Redis.countedIds s {}) ↔ r ∈ s.jobRows now ∧ Redis.Counted {} r :=
    hs.mem_counted
  have htrue : Redis.Counted {} r := by simp [Redis.Counted]
  rw [redisAll, ← and_iff_left (a := r ∈ s.jobRows now) htrue, ← hcounted]
  rfl

theorem jobRows_ncard (hs : s.Surveyed) : (s.jobRows now).ncard = (redisAll s now).length := by
  have hnodup : (redisAll s now).Nodup := Redis.rowsOf_nodup (hs.pool_nodup none "")
  rw [← ncard_list hnodup]
  congr 1
  ext r
  exact (mem_redisAll hs).symm

/-- The lists say whether the jobs are distinct. -/
theorem distinct_of_nodup (hs : s.Surveyed) (hids : (table.map JobRow.id).Nodup)
    (htimes : ((table ++ redisAll s now).map JobRow.createdAt).Nodup) (hdated : ∀ r ∈ table ++ redisAll s now, Dated r.createdAt) :
    Distinct table s now := by
  rw [List.map_append, List.nodup_append] at htimes
  obtain ⟨hpg, hredis, hapart⟩ := htimes
  refine { surveyed := hs, primary := hids, pg := hpg, redis := ?_, apart := ?_, dated := ?_ }
  · intro r hr r' hr' heq
    exact List.inj_on_of_nodup_map hredis ((mem_redisAll hs).mpr hr) ((mem_redisAll hs).mpr hr') heq
  · intro r hr r' hr'
    exact hapart _ (List.mem_map_of_mem hr) _ (List.mem_map_of_mem ((mem_redisAll hs).mpr hr'))
  · rintro r (hr | hr)
    · exact hdated r (List.mem_append_left _ hr)
    · exact hdated r (List.mem_append_right _ ((mem_redisAll hs).mpr hr))

theorem Distinct.redisAll_nodup (h : Distinct table s now) : (redisAll s now).Nodup :=
  Redis.rowsOf_nodup (h.surveyed.pool_nodup none "")

theorem Distinct.mem_all (h : Distinct table s now) {r : JobRow} :
    r ∈ table ++ redisAll s now ↔ r ∈ allJobs table s now := by
  rw [List.mem_append, mem_redisAll h.surveyed]
  rfl

theorem Distinct.table_nodup (h : Distinct table s now) : table.Nodup := List.Nodup.of_map _ h.pg

theorem Distinct.not_both (h : Distinct table s now) {r : JobRow} (hr : r ∈ table) : r ∉ redisAll s now :=
  fun hr' => h.apart r hr r ((mem_redisAll h.surveyed).mp hr') rfl

theorem Distinct.all_nodup (h : Distinct table s now) : (table ++ redisAll s now).Nodup := by
  refine List.nodup_append.mpr ⟨h.table_nodup, h.redisAll_nodup, ?_⟩
  rintro r hr _ hr' rfl
  exact h.not_both hr hr'

/-- A job is determined by its `createdAt`. -/
theorem Distinct.inj (h : Distinct table s now) {r r' : JobRow} (hr : r ∈ allJobs table s now)
    (hr' : r' ∈ allJobs table s now) (heq : r.createdAt = r'.createdAt) : r = r' := by
  rcases hr with hr | hr <;> rcases hr' with hr' | hr'
  · exact List.inj_on_of_nodup_map h.pg hr hr' heq
  · exact absurd heq (h.apart r hr r' hr')
  · exact absurd heq.symm (h.apart r' hr' r hr)
  · exact h.redis r hr r' hr' heq

theorem mem_newestFirst (h : Distinct table s now) {r : JobRow} :
    r ∈ newestFirst table s now ↔ r ∈ allJobs table s now := by
  rw [newestFirst, mem_orderBy]
  exact h.mem_all

theorem newestFirst_newest (h : Distinct table s now) : Newest JobRow.createdAt (newestFirst table s now) := by
  have hsorted : (newestFirst table s now).Pairwise (fun r r' => decide (r'.createdAt ≤ r.createdAt) = true) :=
    pairwise_orderBy (fun r r' => by simpa using le_total r'.createdAt r.createdAt)
      (fun a b c hab hbc => by simp only [decide_eq_true_iff] at hab hbc ⊢; exact hbc.trans hab) _
  have hnodup : (newestFirst table s now).Nodup := (perm_orderBy _ _).nodup_iff.mpr h.all_nodup
  refine List.Pairwise.imp_of_mem ?_ (hsorted.and hnodup)
  rintro r r' hr hr' ⟨hle, hne⟩
  refine lt_of_le_of_ne (by simpa using hle) fun heq => hne ?_
  exact h.inj ((mem_newestFirst h).mp hr) ((mem_newestFirst h).mp hr') heq.symm

/-- What is complete is the list of all jobs, newest first. -/
theorem complete_iff (h : Distinct table s now) (out : List JobRow) :
    Complete (allJobs table s now) out ↔ out = newestFirst table s now := by
  constructor
  · intro hc
    have hnew := newestFirst_newest h
    have hperm : out.Perm (newestFirst table s now) := by
      refine (List.perm_ext_iff_of_nodup (newest_nodup hc.newest) (newest_nodup hnew)).mpr fun r => ?_
      rw [hc.mem, mem_newestFirst h]
    exact List.Perm.eq_of_pairwise (fun _ _ _ _ hlt hlt' => absurd hlt hlt'.not_gt) hc.newest hnew hperm
  · rintro rfl
    exact ⟨fun r => mem_newestFirst h, newestFirst_newest h⟩

theorem mem_below {c : Option ℤ} {l : List JobRow} {r : JobRow} :
    r ∈ below JobRow.createdAt c l ↔ r ∈ l ∧ ∀ k ∈ c, r.createdAt < k := by
  rw [below, List.mem_filter, decide_eq_true_iff]

/-- The rows of Postgres that are left are those of its table. -/
theorem countP_left (h : Distinct table s now) (c : Option ℤ) (p : JobRow → Prop) [DecidablePred p] :
    (below JobRow.createdAt c (newestFirst table s now)).countP (fun r => r ∈ table ∧ p r) =
      (below JobRow.createdAt c table).countP (fun r => p r) := by
  have hperm : ((below JobRow.createdAt c (newestFirst table s now)).filter (fun r => r ∈ table)).Perm
      (below JobRow.createdAt c table) := by
    refine (List.perm_ext_iff_of_nodup ?_ ?_).mpr fun r => ?_
    · exact ((newest_nodup (newestFirst_newest h)).filter _).filter _
    · exact h.table_nodup.filter _
    · rw [List.mem_filter, mem_below, mem_below, mem_newestFirst h, decide_eq_true_iff]
      constructor
      · rintro ⟨⟨-, hc⟩, hr⟩
        exact ⟨hr, hc⟩
      · rintro ⟨hr, hc⟩
        exact ⟨⟨.inl hr, hc⟩, hr⟩
  rw [← hperm.countP_eq, List.countP_filter]
  refine List.countP_congr fun r _ => ?_
  simp [and_comm]

/-- Postgres delivers the rows with the largest ids. -/
theorem mem_pgRows (h : Distinct table s now) {c : Option ℤ} {r : JobRow} : r ∈ pgRows table limit c ↔
    (r ∈ table ∧ ∀ k ∈ c, r.createdAt < k) ∧
      (below JobRow.createdAt c (newestFirst table s now)).countP (fun r' => r' ∈ table ∧ r.id < r'.id) < cap limit := by
  have hids : ((below JobRow.createdAt c table).map JobRow.id).Nodup :=
    h.primary.sublist (List.filter_sublist.map _)
  have hperm := perm_orderBy (fun r r' : JobRow => r'.id ≤ r.id) (below JobRow.createdAt c table)
  have hle : (orderBy (fun r r' : JobRow => r'.id ≤ r.id) (below JobRow.createdAt c table)).Pairwise
      (fun r r' => decide (r'.id ≤ r.id) = true) :=
    pairwise_orderBy (fun r r' => by simpa using le_total r'.id r.id)
      (fun a b c hab hbc => by simp only [decide_eq_true_iff] at hab hbc ⊢; exact hbc.trans hab) _
  have hne : (orderBy (fun r r' : JobRow => r'.id ≤ r.id) (below JobRow.createdAt c table)).Pairwise
      (fun r r' => r.id ≠ r'.id) := List.pairwise_map.mp ((hperm.map JobRow.id).nodup_iff.mpr hids)
  have hsorted : (orderBy (fun r r' : JobRow => r'.id ≤ r.id) (below JobRow.createdAt c table)).Pairwise
      (fun r r' => r'.id < r.id) := by
    refine List.Pairwise.imp ?_ (hle.and hne)
    rintro r r' ⟨hle, hne⟩
    exact lt_of_le_of_ne (by simpa using hle) hne.symm
  rw [countP_left h, ← hperm.countP_eq, ← mem_below]
  constructor
  · intro hr
    have hin := List.mem_of_mem_take hr
    exact ⟨mem_orderBy.mp hin, (mem_take_iff_countP hsorted hin).mp hr⟩
  · rintro ⟨hin, hcount⟩
    exact (mem_take_iff_countP hsorted (mem_orderBy.mpr hin)).mpr hcount

/-- **What both deliver**, if Redis does not cut its pool. -/
theorem delivered_perm (h : Distinct table s now) (hle : (redisAll s now).length ≤ cap limit) (c : Option ℤ) :
    (pgRows table limit c ++ redisRows s now limit c).Perm
      ((below JobRow.createdAt c (newestFirst table s now)).filter
        (delivered table (cap limit) (below JobRow.createdAt c (newestFirst table s now)))) := by
  have hredis : redisRows s now limit c = below JobRow.createdAt c (redisAll s now) := by
    rw [redisRows, List.take_of_length_le hle]
  have hpg : (pgRows table limit c).Nodup := by
    refine List.Nodup.sublist (List.take_sublist _ _) ?_
    exact (perm_orderBy _ _).nodup_iff.mpr (h.table_nodup.filter _)
  rw [hredis]
  refine (List.perm_ext_iff_of_nodup ?_ ?_).mpr fun r => ?_
  · refine List.nodup_append.mpr ⟨hpg, h.redisAll_nodup.filter _, ?_⟩
    rintro r hr _ hr' rfl
    exact h.not_both ((mem_pgRows h).mp hr).1.1 (mem_below.mp hr').1
  · exact ((newest_nodup (newestFirst_newest h)).filter _).filter _
  · rw [List.mem_append, mem_pgRows h, mem_below, List.mem_filter, mem_below, mem_newestFirst h, ← h.mem_all, List.mem_append,
      delivered, decide_eq_true_iff]
    constructor
    · rintro (⟨⟨hr, hc⟩, hcount⟩ | ⟨hr, hc⟩)
      · exact ⟨⟨.inl hr, hc⟩, fun _ => hcount⟩
      · exact ⟨⟨.inr hr, hc⟩, fun hr' => absurd hr (h.not_both hr')⟩
    · rintro ⟨⟨hr, hc⟩, hcount⟩
      rcases hr with hr | hr
      · exact .inl ⟨⟨hr, hc⟩, hcount hr⟩
      · exact .inr ⟨hr, hc⟩

/-- Of rows that are left one is delivered, and so a page is not empty. -/
theorem pageLength_pos (table : List JobRow) (hlimit : 0 < limit) (l : List JobRow) (hl : l ≠ []) :
    0 < pageLength table limit l := by
  obtain ⟨r, hr, hmax⟩ := l.toFinset.exists_max_image JobRow.id (List.toFinset_nonempty_iff l |>.mpr hl)
  have hnone : l.countP (fun r' => r' ∈ table ∧ r.id < r'.id) = 0 := by
    rw [List.countP_eq_zero]
    intro r' hr'
    have := hmax r' (List.mem_toFinset.mpr hr')
    simp [this]
  have hgot : delivered table (cap limit) l r = true := by
    rw [delivered, decide_eq_true_iff, hnone]
    exact fun _ => cap_pos limit
  have hpos : 0 < l.countP (delivered table (cap limit) l) := List.countP_pos_iff.mpr ⟨r, List.mem_toFinset.mp hr, hgot⟩
  unfold pageLength
  omega

/-- The text of a row is read back. -/
theorem cursor_parse (hT : T.Lawful) (h : Distinct table s now) {c : Option ℤ}
    (hc : IsCursor JobRow.createdAt (newestFirst table s now) c) : (c.map T.toRfc3339).bind T.parseFromRfc3339 = c := by
  cases c with
  | none => rfl
  | some k =>
    obtain ⟨r, hr, rfl⟩ := hc k rfl
    exact hT.parse _ (h.dated r ((mem_newestFirst h).mp hr))

theorem pageRows_length (hT : T.Lawful) (h : Distinct table s now) (hle : (redisAll s now).length ≤ cap limit)
    {c : Option ℤ} (hc : IsCursor JobRow.createdAt (newestFirst table s now) c) :
    (pageRows T (bothApp table s pick now) limit c).length =
      pageLength table limit (below JobRow.createdAt c (newestFirst table s now)) := by
  rw [pageRows_eq h.surveyed (cursor_parse hT h hc), List.length_take, (perm_orderBy _ _).length_eq,
    (delivered_perm h hle c).length_eq, ← List.countP_eq_length_filter]
  rfl

/-- **A page is the front of what is left** exactly when it is in order. -/
theorem pageRows_front_iff (hT : T.Lawful) (h : Distinct table s now) (hle : (redisAll s now).length ≤ cap limit)
    {c : Option ℤ} (hc : IsCursor JobRow.createdAt (newestFirst table s now) c) :
    pageRows T (bothApp table s pick now) limit c = (below JobRow.createdAt c (newestFirst table s now)).take
        (pageLength table limit (below JobRow.createdAt c (newestFirst table s now))) ↔
      PageOk T table limit (below JobRow.createdAt c (newestFirst table s now)) := by
  have hperm := delivered_perm h hle c
  have hmem : ∀ r ∈ pgRows table limit c ++ redisRows s now limit c, r ∈ allJobs table s now := by
    intro r hr
    exact (mem_newestFirst h).mp (mem_below.mp (List.mem_filter.mp (hperm.mem_iff.mp hr)).1).1
  have hanti : ∀ r ∈ pgRows table limit c ++ redisRows s now limit c,
      ∀ r' ∈ pgRows table limit c ++ redisRows s now limit c, mergeLe T r r' = true → mergeLe T r' r = true → r = r' := by
    intro r hr r' hr' hle hle'
    have hd := h.dated r (hmem r hr)
    have hd' := h.dated r' (hmem r' hr')
    have htext := hT.equal _ _ hd hd' (by simpa [mergeLe] using hle') (by simpa [mergeLe] using hle)
    have hparse := hT.parse _ hd
    rw [htext, hT.parse _ hd', Option.some.injEq] at hparse
    exact h.inj (hmem r hr) (hmem r' hr') hparse.symm
  have htotal : ∀ r r', mergeLe T r r' = true ∨ mergeLe T r' r = true := by
    intro r r'
    simpa [mergeLe] using hT.total _ _
  have htrans : ∀ a b c, mergeLe T a b = true → mergeLe T b c = true → mergeLe T a c = true := by
    intro a b c hab hbc
    simp only [mergeLe, decide_eq_true_iff] at hab hbc ⊢
    exact hT.trans _ _ _ hbc hab
  have hnew : Newest JobRow.createdAt (below JobRow.createdAt c (newestFirst table s now)) :=
    List.Pairwise.filter _ (newestFirst_newest h)
  rw [pageRows_eq h.surveyed (cursor_parse hT h hc)]
  refine (take_orderBy_eq_iff htotal htrans hanti hnew hperm limit).trans ?_
  simp only [PageOk, pageLength, mergeLe, decide_eq_false_iff_not, not_le]

/-- A row that Redis cuts off is on no page. -/
theorem not_mem_pageRows (h : Distinct table s now) {r : JobRow} (hpg : r ∉ table)
    (hredis : r ∉ (redisAll s now).take (cap limit)) (c : Option ℤ) : r ∉ pageRows T (bothApp table s pick now) limit c := by
  intro hr
  rw [pageRows_eq h.surveyed rfl] at hr
  have hin := mem_orderBy.mp (List.mem_of_mem_take hr)
  rcases List.mem_append.mp hin with hin | hin
  · exact hpg (mem_below.mp (mem_orderBy.mp (List.mem_of_mem_take hin))).1
  · exact hredis (mem_below.mp hin).1

/-- A complete reading sees the whole of Redis. -/
theorem length_le_of_complete (h : Distinct table s now) {n : Nat} {out : List JobRow}
    (hout : follow T (bothApp table s pick now) limit n = some out) (hc : Complete (allJobs table s now) out) :
    (redisAll s now).length ≤ cap limit := by
  by_contra hlt
  rw [not_le] at hlt
  have hr : (redisAll s now)[cap limit] ∈ redisAll s now := List.getElem_mem hlt
  have hcut : (redisAll s now)[cap limit] ∉ (redisAll s now).take (cap limit) := by
    intro hin
    obtain ⟨i, hi, heq⟩ := List.mem_take_iff_getElem.mp hin
    have := (List.Nodup.getElem_inj_iff h.redisAll_nodup).mp heq
    omega
  have hpg : (redisAll s now)[cap limit] ∉ table := fun hin => h.not_both hin hr
  obtain ⟨c, hpage⟩ := mem_walk hout _ ((hc.mem _).mpr (.inr ((mem_redisAll h.surveyed).mp hr)))
  exact not_mem_pageRows h hpg hcut c hpage

end Reading

/-! ## A small board -/

/-- RFC 3339 for the first two seconds, some text for every other instant, compared character by character. -/
def sampleTexts : Texts where
  toRfc3339 t :=
    if t = 10 ^ 9 then "1970-01-01T00:00:01+00:00"
    else if t = 2 * 10 ^ 9 then "1970-01-01T00:00:02+00:00"
    else "t" ++ (2 * t.natAbs + if t < 0 then 1 else 0).repr
  parseFromRfc3339 text :=
    if text = "1970-01-01T00:00:01+00:00" then some (10 ^ 9)
    else if text = "1970-01-01T00:00:02+00:00" then some (2 * 10 ^ 9)
    else
      let n := Nat.ofDigitChars 10 text.toList.tail 0
      some (if n % 2 = 1 then -(n / 2 : Nat) else (n / 2 : Nat))
  localeCompare a b := if a < b then -1 else if b < a then 1 else 0

theorem sampleTexts_le (a b : String) : sampleTexts.localeCompare a b ≤ 0 ↔ a ≤ b := by
  dsimp only [sampleTexts]
  split
  · next h => simp [h.le]
  · next h =>
    split
    · next h' => simp [h']
    · next h' => simp [not_lt.mp h']

theorem sampleTexts_lawful : sampleTexts.Lawful where
  parse t _ := by
    by_cases h1 : t = 10 ^ 9
    · subst h1
      rfl
    · by_cases h2 : t = 2 * 10 ^ 9
      · subst h2
        rfl
      · have htext : sampleTexts.toRfc3339 t = "t" ++ (2 * t.natAbs + if t < 0 then 1 else 0).repr := by
          simp only [sampleTexts, if_neg h1, if_neg h2]
        have hchars : ("t" ++ (2 * t.natAbs + if t < 0 then 1 else 0).repr).toList =
            't' :: Nat.toDigits 10 (2 * t.natAbs + if t < 0 then 1 else 0) := by
          rw [String.toList_append, Nat.toList_repr]
          rfl
        have hother : ∀ x : String, x.toList.head? = some '1' →
            "t" ++ (2 * t.natAbs + if t < 0 then 1 else 0).repr ≠ x := by
          rintro x hx rfl
          rw [hchars] at hx
          cases hx
        rw [htext]
        dsimp only [sampleTexts]
        rw [if_neg (hother _ (by decide)), if_neg (hother _ (by decide)), hchars, List.tail_cons, Nat.ofDigitChars_ten_toDigits,
          Option.some.injEq]
        split <;> split <;> omega
  total a b := by
    simp only [sampleTexts_le]
    exact le_total a b
  trans a b c := by
    simp only [sampleTexts_le]
    exact le_trans
  equal t t' _ _ := by
    simp only [sampleTexts_le]
    exact le_antisymm

/-- One job on Redis. -/
def mailRun : List Redis.Op := [.enqueue { kind := "mail", queue := "default" } 1000]

theorem mailRun_surveyed : (mailRun.foldl Redis.Op.apply Redis.Store.empty).Surveyed :=
  Redis.reached_surveyed (run_of_guards mailRun (Reach.refl _) ⟨fun _ => ⟨by decide, by decide⟩, trivial⟩)

/-- And one on Postgres, created a second later. -/
def smsRow : JobRow where
  id := 1
  queue := "default"
  kind := "sms"
  state := "pending"
  priority := 0
  attempt := 0
  maxAttempts := 3
  scheduledAt := 2 * 10 ^ 9
  createdAt := 2 * 10 ^ 9
  finalizedAt := none
  groupKey := none
  tags := []

theorem mailRun_distinct : Distinct [smsRow] (mailRun.foldl Redis.Op.apply Redis.Store.empty) 0 :=
  distinct_of_nodup mailRun_surveyed (by decide) (by decide) (by decide)

/-- Two jobs on Redis, created a second apart. -/
def laterRun : List Redis.Op :=
  [.enqueue { kind := "mail", queue := "default" } 1000, .enqueue { kind := "mail", queue := "default" } 2000]

theorem laterRun_distinct : Distinct [] (laterRun.foldl Redis.Op.apply Redis.Store.empty) 0 := by
  have hs : (laterRun.foldl Redis.Op.apply Redis.Store.empty).Surveyed :=
    Redis.reached_surveyed (run_of_guards laterRun (Reach.refl _)
      ⟨fun _ => ⟨by decide, by decide⟩, fun _ => ⟨by decide, by decide⟩, trivial⟩)
  exact distinct_of_nodup hs (by decide) (by decide) (by decide)

end Eddyq.Dashboard
