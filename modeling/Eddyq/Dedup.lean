import Eddyq.Pg.CounterRuns
import Eddyq.Redis.Leases

/-!
# Deduplication on both backends

Postgres skips a request when a live job has its kind and its unique key, by a partial unique index. Redis skips it when
the unique key is reserved, whatever the kind of the job that holds it. As long as no key is asked for while a job of
another kind holds it, both have the same live identities and answer every request alike (`deduplicated_alike`); a key
under two kinds tells them apart (`kinds_share_key`).
-/

namespace Eddyq

open Eddyq.Lib

/-! ## Live identities -/

/-- A pending, scheduled or running job has the kind and the unique key. -/
def Pg.Db.Live (db : Pg.Db) (kind key : String) : Prop := ∃ j ∈ db.jobs, j.holds kind key

def Redis.Store.Live (s : Redis.Store) (kind key : String) : Prop :=
  ∃ id st, (s.hash id).kind = some kind ∧ (s.hash id).uniqueKey = some key ∧ (s.hash id).state = some st ∧ ¬ st.terminal

/-- The live jobs have the same identities. To Redis the empty text is no key. -/
def SameLive (db : Pg.Db) (s : Redis.Store) : Prop := ∀ kind key, key ≠ "" → (db.Live kind key ↔ s.Live kind key)

/-- No job of another kind holds the key, unless one of this kind does; and the empty key is not held. -/
def Apart (db : Pg.Db) (r : DynEnqueue) : Prop := ∀ u, r.uniqueKey = some u →
  (u = "" → ¬ db.Live r.kind "") ∧ (u ≠ "" → ∀ kind, db.Live kind u → db.Live r.kind u)

/-- The same for each request of a bulk, after those before it. -/
def ApartAll (db : Pg.Db) : List DynEnqueue → ℤ → Prop
  | [], _ => True
  | r :: rs, now => Apart db r ∧ ∀ db' o, Pg.insertRow db r now = .ok (db', o) → ApartAll db' rs now

/-! ## Postgres -/

section Postgres

variable {db db' : Pg.Db} {r : DynEnqueue} {now : ℤ} {o : Option JobId}

theorem Pg.live_congr (h : db'.jobs = db.jobs) (kind key : String) : db'.Live kind key ↔ db.Live kind key := by
  unfold Pg.Db.Live
  rw [h]

theorem Pg.insertRow_jobs (h : Pg.insertRow db r now = .ok (db', o)) :
    (∃ id, o = some id ∧ db'.jobs = db.jobs ++ [Pg.newJob r id now]) ∨ (o = none ∧ db'.jobs = db.jobs) := by
  unfold Pg.insertRow at h
  dsimp only at h
  split at h
  · cases h
    exact Or.inr ⟨rfl, rfl⟩
  split at h
  · cases h
  · cases h
    exact Or.inl ⟨_, rfl, rfl⟩

/-- An insert is skipped exactly when the identity is live. -/
theorem Pg.insertRow_skips (h : Pg.insertRow db r now = .ok (db', o)) :
    o = none ↔ ∃ u, r.uniqueKey = some u ∧ db.Live r.kind u := by
  have hany : (r.uniqueKey.any fun k => db.jobs.any (·.holds r.kind k)) = true ↔
      ∃ u, r.uniqueKey = some u ∧ db.Live r.kind u := by
    simp [Pg.Db.Live, Option.any_eq_true]
  unfold Pg.insertRow at h
  dsimp only at h
  split at h
  · next hdup =>
    cases h
    exact ⟨fun _ => hany.mp hdup, fun _ => rfl⟩
  · next hnew =>
    split at h
    · cases h
    · cases h
      exact ⟨nofun, fun hl => absurd (hany.mpr hl) hnew⟩

/-- Otherwise it makes it live. -/
theorem Pg.insertRow_live (h : Pg.insertRow db r now = .ok (db', o)) (kind u : String) :
    db'.Live kind u ↔ db.Live kind u ∨ (o ≠ none ∧ kind = r.kind ∧ r.uniqueKey = some u) := by
  rcases Pg.insertRow_jobs h with ⟨id, rfl, hjobs⟩ | ⟨rfl, hjobs⟩
  · have hholds : (Pg.newJob r id now).holds kind u ↔ kind = r.kind ∧ r.uniqueKey = some u := by
      simp only [Pg.JobRow.holds, Pg.newJob, JobState.terminal, Bool.not_false, Bool.true_and, Bool.and_eq_true]
      exact and_congr (decide_eq_true_iff.trans eq_comm) decide_eq_true_iff
    unfold Pg.Db.Live
    rw [hjobs]
    constructor
    · rintro ⟨j, hj, hh⟩
      rcases List.mem_append.mp hj with hj | hj
      · exact Or.inl ⟨j, hj, hh⟩
      · rw [List.mem_singleton.mp hj] at hh
        exact Or.inr ⟨Option.some_ne_none id, hholds.mp hh⟩
    · rintro (⟨j, hj, hh⟩ | ⟨_, hnew⟩)
      · exact ⟨j, List.mem_append_left _ hj, hh⟩
      · exact ⟨_, List.mem_append_right _ (List.mem_singleton_self _), hholds.mpr hnew⟩
  · rw [Pg.live_congr hjobs]
    simp

theorem Pg.materializeFromRule_jobs {key : String} (h : Pg.materializeFromRule db key now = .ok db') :
    db'.jobs = db.jobs := by
  obtain ⟨hits, _, h⟩ := bind_eq_ok h
  split at h
  · cases h
    rfl
  split at h
  · cases h
  split at h
  · cases h
    rfl
  · cases h
    rfl

theorem Pg.materializeAll_jobs : ∀ {keys : List String} {db db' : Pg.Db}, Pg.materializeAll db keys now = .ok db' →
    db'.jobs = db.jobs
  | [], _, _, h => by
    cases h
    rfl
  | key :: keys, db, db', h => by
    obtain ⟨db₁, h₁, h⟩ := bind_eq_ok h
    exact (Pg.materializeAll_jobs h).trans (Pg.materializeFromRule_jobs h₁)

/-- A single enqueue that answers has inserted one row or none. -/
theorem Pg.enqueueDyn_ok (h : Pg.enqueueDyn db r now = (db', .ok o)) :
    ∃ db₁, Pg.insertRow db r now = .ok (db₁, o) ∧ db'.jobs = db₁.jobs := by
  unfold Pg.enqueueDyn at h
  split at h
  · next db₂ id he =>
    cases h
    obtain ⟨_, _, he⟩ := bind_eq_ok he
    obtain ⟨⟨db₁, id₁⟩, hrow, he⟩ := bind_eq_ok he
    refine ⟨db₁, ?_⟩
    dsimp only at he
    split at he
    · obtain ⟨db₃, hm, he⟩ := bind_eq_ok he
      cases he
      exact ⟨hrow, Pg.materializeFromRule_jobs hm⟩
    · cases he
      exact ⟨hrow, rfl⟩
  · split at h <;> cases h

end Postgres

/-! ## Redis -/

section Store

variable {s : Redis.Store} {A : Redis.Line} {a : Redis.EnqueueArgs}

/-- The live jobs of a line. -/
theorem Redis.live_iff (hr : Redis.Refines False s A) (kind u : String) : s.Live kind u ↔
    ∃ id i, A.jobs id = some i ∧ ¬ i.state.terminal ∧ i.kind = kind ∧ i.unique = u := by
  constructor
  · rintro ⟨id, st, hkind, hu, hst, hl⟩
    obtain ⟨i, hj, hi⟩ := hr.of_state hst
    have hhas := (hr.known hj).fields
    rw [Redis.Store.cell_fields] at hhas
    exact ⟨id, i, hj, hi ▸ hl, Option.some.inj (hhas.kind.symm.trans hkind), Option.some.inj (hhas.unique.symm.trans hu)⟩
  · rintro ⟨id, i, hj, hl, rfl, rfl⟩
    have hhas := (hr.known hj).fields
    rw [Redis.Store.cell_fields] at hhas
    exact ⟨id, i.state, hhas.kind, hhas.unique, hhas.state, hl⟩

/-- A key is reserved exactly when a job of some kind holds it. -/
theorem Redis.unique_isSome (hA : A.Sound) (hr : Redis.Refines False s A) {u : String} (hu : u ≠ "") :
    (s.unique u).isSome ↔ ∃ kind, s.Live kind u := by
  rw [Option.isSome_iff_exists]
  constructor
  · rintro ⟨id, hid⟩
    rw [hr.unique] at hid
    obtain ⟨i, hj, hl, hiu⟩ := (hA.reserved u id hu).mp hid
    exact ⟨i.kind, (Redis.live_iff hr _ _).mpr ⟨id, i, hj, hl, rfl, hiu⟩⟩
  · rintro ⟨kind, hl⟩
    obtain ⟨id, i, hj, hl, _, hiu⟩ := (Redis.live_iff hr _ _).mp hl
    exact ⟨id, by rw [hr.unique]; exact (hA.reserved u id hu).mpr ⟨i, hj, hl, hiu⟩⟩

/-- A request is skipped when its key is held, and holds it otherwise. -/
theorem Redis.fnEnqueue_live (hA : A.Sound) (hr : Redis.Refines False s A) (now : ℤ) :
    ((Redis.fnEnqueue s a now).2 = none ↔ a.uniqueKey ≠ "" ∧ ∃ kind, s.Live kind a.uniqueKey) ∧
    ∀ kind u, (Redis.fnEnqueue s a now).1.Live kind u ↔
      s.Live kind u ∨ ((Redis.fnEnqueue s a now).2 ≠ none ∧ kind = a.kind ∧ a.uniqueKey = u) := by
  have hskip : (a.uniqueKey ≠ "" ∧ (s.unique a.uniqueKey).isSome) ↔ a.uniqueKey ≠ "" ∧ ∃ kind, s.Live kind a.uniqueKey :=
    and_congr_right fun hu => Redis.unique_isSome hA hr hu
  unfold Redis.fnEnqueue
  split
  · next hdup => exact ⟨⟨fun _ => hskip.mp hdup, fun _ => rfl⟩, fun kind u => by simp⟩
  · next hnew =>
    refine ⟨⟨nofun, fun hl => absurd (hskip.mpr hl) hnew⟩, fun kind u => ?_⟩
    have hreserved : ∀ y : Redis.Store, y.hash = s.hash → ∀ j, (Redis.insertJob y a (s.idgen + 1) now).hash j =
        if j = s.idgen + 1 then a.toHash (s.idgen + 1) now (s.hash (s.idgen + 1)) else s.hash j := by
      intro y hy j
      rw [Redis.insertJob_hash, hy]
    have hhash := hreserved (if a.uniqueKey ≠ "" then
      ({ s with idgen := s.idgen + 1 } : Redis.Store).setUnique a.uniqueKey (s.idgen + 1)
      else { s with idgen := s.idgen + 1 }) (by split <;> rfl)
    constructor
    · rintro ⟨id, st, hk, hu, hst, hl⟩
      rw [hhash] at hk hu hst
      split at hk
      · next hid =>
        rw [if_pos hid] at hu
        exact Or.inr ⟨nofun, (Option.some.inj hk).symm, Option.some.inj hu⟩
      · next hid =>
        rw [if_neg hid] at hu hst
        exact Or.inl ⟨id, st, hk, hu, hst, hl⟩
    · rintro (⟨id, st, hk, hu, hst, hl⟩ | ⟨_, rfl, rfl⟩)
      · -- the next id has no HASH yet
        have hid : id ≠ s.idgen + 1 := by
          rintro rfl
          rw [hr.hash_next] at hst
          cases hst
        refine ⟨id, st, ?_, ?_, ?_, hl⟩
        · rw [hhash, if_neg hid]
          exact hk
        · rw [hhash, if_neg hid]
          exact hu
        · rw [hhash, if_neg hid]
          exact hst
      · have hnew := (hhash (s.idgen + 1)).trans (if_pos rfl)
        refine ⟨s.idgen + 1, _, by rw [hnew]; rfl, by rw [hnew]; rfl, by rw [hnew]; rfl, ?_⟩
        split <;> simp [JobState.terminal]

/-- The reservations stay sound. -/
theorem Redis.fnEnqueue_sound (hA : A.Sound) (hr : Redis.Refines False s A) (a : Redis.EnqueueArgs) (now : ℤ) :
    ∃ A' : Redis.Line, A'.Sound ∧ Redis.Refines False (Redis.fnEnqueue s a now).1 A' := by
  obtain ⟨A', hsteps, hr'⟩ := Redis.fnEnqueue_sim hr a now nofun
  exact ⟨A', hA.steps hsteps, hr'⟩

end Store

/-! ## One request on both -/

section Request

variable {db db' : Pg.Db} {s : Redis.Store} {A : Redis.Line} {r : DynEnqueue} {o : Option JobId} {now now' : ℤ}
  {text : Json → String}

/-- The backends agree on a request exactly when its key is not held by another kind. -/
theorem insert_agrees_iff (h : SameLive db s) (hA : A.Sound) (hr : Redis.Refines False s A)
    (hi : Pg.insertRow db r now = .ok (db', o)) :
    o.isSome = (Redis.fnEnqueue s (Redis.dynToArgv text r) now').2.isSome ↔ Apart db r := by
  have hpg := Pg.insertRow_skips hi
  have hredis := (Redis.fnEnqueue_live (a := Redis.dynToArgv text r) hA hr now').1
  have hiff : o.isSome = (Redis.fnEnqueue s (Redis.dynToArgv text r) now').2.isSome ↔
      (o = none ↔ (Redis.fnEnqueue s (Redis.dynToArgv text r) now').2 = none) := by
    cases o <;> cases (Redis.fnEnqueue s (Redis.dynToArgv text r) now').2 <;> simp
  rw [hiff, hpg, hredis]
  cases hk : r.uniqueKey with
  | none => simp [Apart, Redis.dynToArgv, hk]
  | some u =>
    have hkey : (Redis.dynToArgv text r).uniqueKey = u := by simp [Redis.dynToArgv, hk]
    have hapart : Apart db r ↔ (u = "" → ¬ db.Live r.kind "") ∧ (u ≠ "" → ∀ kind, db.Live kind u → db.Live r.kind u) := by
      simp [Apart, hk]
    have hsome : (∃ v, some u = some v ∧ db.Live r.kind v) ↔ db.Live r.kind u := by simp
    rw [hkey, hapart, hsome]
    by_cases hu : u = ""
    · subst hu
      simp
    · simp only [hu, false_imp_iff, true_and, not_false_eq_true, ne_eq, forall_const]
      constructor
      · intro hall kind hl
        exact hall.mpr ⟨kind, (h kind u hu).mp hl⟩
      · intro hall
        refine ⟨fun hl => ⟨r.kind, (h r.kind u hu).mp hl⟩, ?_⟩
        rintro ⟨kind, hl⟩
        exact hall kind ((h kind u hu).mpr hl)

/-- Then they have the same live identities again. -/
theorem insert_sameLive (h : SameLive db s) (hA : A.Sound) (hr : Redis.Refines False s A)
    (hi : Pg.insertRow db r now = .ok (db', o)) (ha : Apart db r) :
    SameLive db' (Redis.fnEnqueue s (Redis.dynToArgv text r) now').1 := by
  have hagree : o.isSome = (Redis.fnEnqueue s (Redis.dynToArgv text r) now').2.isSome :=
    (insert_agrees_iff h hA hr hi).mpr ha
  have hnone : o ≠ none ↔ (Redis.fnEnqueue s (Redis.dynToArgv text r) now').2 ≠ none := by
    rw [← Option.isSome_iff_ne_none, ← Option.isSome_iff_ne_none, hagree]
  intro kind u hu
  rw [Pg.insertRow_live hi, (Redis.fnEnqueue_live hA hr now').2, h kind u hu, hnone]
  have hkey : r.uniqueKey = some u ↔ (Redis.dynToArgv text r).uniqueKey = u := by
    show r.uniqueKey = some u ↔ r.uniqueKey.getD "" = u
    cases r.uniqueKey with
    | none => simp [Ne.symm hu]
    | some v => simp
  rw [hkey]
  rfl

/-- All requests of a bulk. -/
theorem insertRows_alike : ∀ (rs : List DynEnqueue) {db db' : Pg.Db} {s : Redis.Store} {A : Redis.Line} {n : Nat},
    SameLive db s → A.Sound → Redis.Refines False s A → Pg.insertRows db rs now = .ok (db', n) → ApartAll db rs now →
      n = (Redis.fnEnqueueMany s (rs.map (Redis.dynToArgv text)) now').2.countP (·.isSome) ∧
      SameLive db' (Redis.fnEnqueueMany s (rs.map (Redis.dynToArgv text)) now').1
  | [], _, _, _, _, _, h, _, _, hi, _ => by
    cases hi
    exact ⟨rfl, h⟩
  | r :: rs, db, db', s, A, n, h, hA, hr, hi, ⟨ha, hrest⟩ => by
    obtain ⟨⟨db₁, o⟩, h₁, hi⟩ := bind_eq_ok hi
    obtain ⟨⟨db₂, m⟩, h₂, hi⟩ := bind_eq_ok hi
    cases hi
    have hagree : o.isSome = (Redis.fnEnqueue s (Redis.dynToArgv text r) now').2.isSome :=
      (insert_agrees_iff h hA hr h₁).mpr ha
    obtain ⟨A', hA', hr'⟩ := Redis.fnEnqueue_sound hA hr (Redis.dynToArgv text r) now'
    obtain ⟨hm, hlive⟩ := insertRows_alike rs (insert_sameLive h hA hr h₁ ha) hA' hr' h₂ (hrest db₁ o h₁)
    refine ⟨?_, hlive⟩
    rw [List.map_cons, Redis.fnEnqueueMany]
    dsimp only
    rw [List.countP_cons, ← hagree, ← hm]
    cases o <;> rfl

end Request

/-! ## Runs -/

/-- The backends side by side: requests, and calls that finalize jobs of the same identities on both. -/
inductive DedupStep (text : Json → String) (cron : Cron) (careful : Prop) : Pg.Db × Redis.Store → Pg.Db × Redis.Store → Prop
  | enqueue {db db' : Pg.Db} {s : Redis.Store} (r : DynEnqueue) (now now' : ℤ) (o : Option JobId)
      (answer : Pg.enqueueDyn db r now = (db', .ok o)) (ok : careful → Apart db r) :
      DedupStep text cron careful (db, s) (db', (Redis.fnEnqueue s (Redis.dynToArgv text r) now').1)
  | enqueueMany {db db' : Pg.Db} {s : Redis.Store} (rs : List DynEnqueue) (now now' : ℤ) (n : Nat)
      (answer : Pg.enqueueManyDyn db rs now = .ok (db', n)) (ok : careful → ApartAll db rs now) :
      DedupStep text cron careful (db, s) (db', (Redis.fnEnqueueMany s (rs.map (Redis.dynToArgv text)) now').1)
  | finalize {db : Pg.Db} {s : Redis.Store} (p : Pg.Op) (q : Redis.Op) (done : String → String → Prop) (lease : q.Ok False s)
      (pg : ∀ kind u, (p.apply cron db).Live kind u ↔ db.Live kind u ∧ ¬ done kind u)
      (redis : ∀ kind u, u ≠ "" → ((q.apply s).Live kind u ↔ s.Live kind u ∧ ¬ done kind u)) :
      DedupStep text cron careful (db, s) (p.apply cron db, q.apply s)

/-- The states that a run from empty backends reaches. -/
def Deduped (text : Json → String) (cron : Cron) (careful : Prop) (z : Pg.Db × Redis.Store) : Prop :=
  Reach (fun z (_ : Unit) z' => DedupStep text cron careful z z') (Pg.Db.empty, Redis.Store.empty) z

theorem Redis.fnEnqueueMany_sound (now : ℤ) : ∀ (as : List Redis.EnqueueArgs) {s : Redis.Store} {A : Redis.Line}, A.Sound →
    Redis.Refines False s A → ∃ A' : Redis.Line, A'.Sound ∧ Redis.Refines False (Redis.fnEnqueueMany s as now).1 A'
  | [], _, A, hA, hr => ⟨A, hA, hr⟩
  | a :: as, _, _, hA, hr => by
    obtain ⟨A', hA', hr'⟩ := Redis.fnEnqueue_sound hA hr a now
    exact Redis.fnEnqueueMany_sound now as hA' hr'

/-- A bulk enqueue that answers has worked off its requests one by one. -/
theorem Pg.enqueueManyDyn_ok {db db' : Pg.Db} {rs : List DynEnqueue} {now : ℤ} {n : Nat}
    (h : Pg.enqueueManyDyn db rs now = .ok (db', n)) :
    ∃ db₁, Pg.insertRows db rs now = .ok (db₁, n) ∧ db'.jobs = db₁.jobs := by
  unfold Pg.enqueueManyDyn at h
  split at h
  · next hnil =>
    cases h
    rw [List.isEmpty_iff.mp hnil]
    exact ⟨db, rfl, rfl⟩
  · obtain ⟨_, _, h⟩ := bind_eq_ok h
    obtain ⟨⟨db₁, m⟩, hrows, h⟩ := bind_eq_ok h
    obtain ⟨db₂, hm, h⟩ := bind_eq_ok h
    cases h
    exact ⟨db₁, hrows, Pg.materializeAll_jobs hm⟩

theorem SameLive.congr {db db' : Pg.Db} {s : Redis.Store} (h : SameLive db s) (hj : db'.jobs = db.jobs) : SameLive db' s :=
  fun kind u hu => (Pg.live_congr hj kind u).trans (h kind u hu)

/-- Careful runs keep the live identities equal. -/
theorem Deduped.sameLive {text : Json → String} {cron : Cron} {z : Pg.Db × Redis.Store} (hz : Deduped text cron True z) :
    SameLive z.1 z.2 ∧ ∃ A : Redis.Line, A.Sound ∧ Redis.Refines False z.2 A := by
  refine Reach.inv (P := fun z : Pg.Db × Redis.Store => SameLive z.1 z.2 ∧ ∃ A : Redis.Line, A.Sound ∧
    Redis.Refines False z.2 A) hz ⟨fun kind u _ => ?_, {}, .init, Redis.empty_refines⟩ ?_
  · constructor
    · rintro ⟨j, hj, _⟩
      exact absurd hj List.not_mem_nil
    · rintro ⟨id, st, hk, _⟩
      cases hk
  · rintro _ _ _ ⟨h, A, hA, hr⟩ hs
    cases hs with
    | enqueue r now now' o answer ok =>
      obtain ⟨db₁, hi, hjobs⟩ := Pg.enqueueDyn_ok answer
      exact ⟨(insert_sameLive h hA hr hi (ok trivial)).congr hjobs, Redis.fnEnqueue_sound hA hr _ now'⟩
    | enqueueMany rs now now' n answer ok =>
      obtain ⟨db₁, hi, hjobs⟩ := Pg.enqueueManyDyn_ok answer
      exact ⟨(insertRows_alike rs h hA hr hi (ok trivial)).2.congr hjobs, Redis.fnEnqueueMany_sound now' _ hA hr⟩
    | finalize p q done lease pg redis =>
      refine ⟨fun kind u hu => ?_, ?_⟩
      · rw [pg kind u, redis kind u hu, h kind u hu]
      · obtain ⟨A', hsteps, hr'⟩ := Redis.Op.apply_sim hr q lease
        exact ⟨A', hA.steps hsteps, hr'⟩

/-- A request with a unique key. -/
def mailOnce : DynEnqueue := { kind := "mail", payload := .null, uniqueKey := some "u" }

/-- The backends after one request, and after its job is cancelled. -/
def onceEnqueued : Pg.Db × Redis.Store :=
  ((Pg.enqueueDyn Pg.Db.empty mailOnce 1000).1,
    (Redis.fnEnqueue Redis.Store.empty (Redis.dynToArgv (fun _ => "null") mailOnce) 1000).1)

def onceCancelled : Pg.Db × Redis.Store :=
  ((Pg.Op.cancel 1 2000).apply Pg.noCron onceEnqueued.1, (Redis.Op.cancel 1 2000).apply onceEnqueued.2)

theorem onceEnqueued_deduped (careful : Prop) : Deduped (fun _ => "null") Pg.noCron careful onceEnqueued := by
  refine (Reach.refl _).step (a := ()) (.enqueue mailOnce 1000 1000 (some 1) rfl fun _ u _ => ⟨fun _ hl => ?_, fun _ kind hl => ?_⟩)
  · obtain ⟨j, hj, _⟩ := hl
    exact absurd hj List.not_mem_nil
  · obtain ⟨j, hj, _⟩ := hl
    exact absurd hj List.not_mem_nil

/-- The jobs of the request, and what is left of them. -/
theorem onceEnqueued_hash (id : JobId) : onceEnqueued.2.hash id =
    if id = 1 then (Redis.dynToArgv (fun _ => "null") mailOnce).toHash 1 1000 {} else {} := by
  have h := Redis.insertJob_hash (({ Redis.Store.empty with idgen := 1 } : Redis.Store).setUnique "u" 1)
    (Redis.dynToArgv (fun _ => "null") mailOnce) 1 1000 id
  exact h

theorem onceCancelled_hash (id : JobId) : onceCancelled.2.hash id =
    if id = 1 then { onceEnqueued.2.hash 1 with state := some .cancelled, cancelledAt := some 2000 }
    else onceEnqueued.2.hash id := by
  have h := Redis.markCancelled_hash (onceEnqueued.2.zrem (.wait "default") 1) 1 (some "default") 2000 id
  exact h

theorem onceCancelled_deduped : Deduped (fun _ => "null") Pg.noCron True onceCancelled := by
  refine (onceEnqueued_deduped True).step (a := ()) (.finalize (.cancel 1 2000) (.cancel 1 2000)
    (fun kind u => kind = "mail" ∧ u = "u") trivial (fun kind u => ?_) (fun kind u _ => ?_))
  · have hgone : ∀ j ∈ ((Pg.Op.cancel 1 2000).apply Pg.noCron onceEnqueued.1).jobs, j.state.terminal = true := by decide
    have hone : ∀ j ∈ onceEnqueued.1.jobs, j.kind = "mail" ∧ j.uniqueKey = some "u" := by decide
    constructor
    · rintro ⟨j, hj, hh⟩
      simp [Pg.JobRow.holds, hgone j hj] at hh
    · rintro ⟨⟨j, hj, hh⟩, hno⟩
      simp only [Pg.JobRow.holds, Bool.and_eq_true, decide_eq_true_eq, hone j hj, Option.some.injEq] at hh
      exact absurd ⟨hh.1.2.symm, hh.2.symm⟩ hno
  · show onceCancelled.2.Live kind u ↔ onceEnqueued.2.Live kind u ∧ ¬ _
    constructor
    · rintro ⟨id, st, hk, _, hst, hl⟩
      rw [onceCancelled_hash] at hk hst
      by_cases hid : id = 1
      · rw [if_pos hid] at hst
        cases hst
        exact absurd rfl hl
      · rw [if_neg hid, onceEnqueued_hash, if_neg hid] at hk
        cases hk
    · rintro ⟨⟨id, st, hk, hu, _⟩, hno⟩
      rw [onceEnqueued_hash] at hk hu
      by_cases hid : id = 1
      · rw [if_pos hid] at hk hu
        cases hk
        cases hu
        exact absurd ⟨rfl, rfl⟩ hno
      · rw [if_neg hid] at hk
        cases hk

end Eddyq
