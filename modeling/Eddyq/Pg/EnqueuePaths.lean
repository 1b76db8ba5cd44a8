import Eddyq.Pg.Enqueue
import Mathlib.Data.List.Dedup

/-!
# Three ways to enqueue a list

`enqueue_many_dyn` inserts all rows with one statement, `enqueue_dyn` one after the other, and the SQL function
`eddyq_enqueue_many` in a loop over a JSON array. `Outcome` is what a caller and the workers see of each: the tables, the
totals, and whether the workers are notified.

All three insert the requests that are not duplicates (`fresh`). They differ in what they do for duplicates: the bulk
path makes the group rows of their keys, and takes their due times for a reason to notify. `pathsAgree_iff` says exactly
when that shows.
-/

namespace Eddyq.Pg

open Eddyq.Lib

/-! ## The paths -/

/-- The rows, the inserted and the skipped requests (none after an error), and whether workers are notified. -/
structure Outcome where
  db : Db
  totals : Option (Nat × Nat)
  notified : Bool

/-- Due at once. -/
def dueNow (now : ℤ) (r : DynEnqueue) : Bool := r.scheduledAt.getD now ≤ now

/-- `enqueue_many_dyn`: one transaction. Any due request is a reason to notify, if some row was inserted. -/
def bulkPath (db : Db) (rs : List DynEnqueue) (now : ℤ) : Outcome :=
  match enqueueManyDyn db rs now with
  | .ok (db', n) => ⟨db', some (n, rs.length - n), rs.any (dueNow now) && 0 < n⟩
  | .error _ => ⟨db, none, false⟩

/-- `enqueue_dyn` on each in order, up to the first error. -/
def rowPath (db : Db) : List DynEnqueue → ℤ → Outcome
  | [], _ => ⟨db, some (0, 0), false⟩
  | r :: rs, now =>
    match enqueueDyn db r now with
    | (db', .ok (some _)) =>
      let o := rowPath db' rs now
      { o with totals := o.totals.map (fun t => (t.1 + 1, t.2)), notified := dueNow now r || o.notified }
    | (db', .ok none) =>
      let o := rowPath db' rs now
      { o with totals := o.totals.map (fun t => (t.1, t.2 + 1)) }
    | (db', .error _) => ⟨db', none, false⟩

/-- What `eddyq_enqueue_many` reads of an item, `none` for a key that is missing (or, read as text, null). -/
structure SqlItem where
  kind : Option String
  payload : Option Json
  priority : Option ℤ := none
  max_attempts : Option ℤ := none
  maxAttempts : Option ℤ := none
  scheduled_at : Option ℤ := none
  scheduledAt : Option ℤ := none
  unique_key : Option String := none
  group_key : Option String := none
  tags : Option (List String) := none
  metadata : Option Json := none
  queue : Option String := none

/-- The row it inserts; `kind` and `payload` are `NOT NULL`. -/
def SqlItem.request (v : SqlItem) (now : ℤ) : Except Error DynEnqueue :=
  match v.kind, v.payload with
  | some kind, some payload => .ok
    { kind := kind
      payload := payload
      priority := v.priority.getD 0
      maxAttempts := (v.max_attempts.or v.maxAttempts).getD 3
      scheduledAt := some ((v.scheduled_at.or v.scheduledAt).getD now)
      uniqueKey := v.unique_key
      groupKey := v.group_key
      tags := v.tags.getD []
      metadata := v.metadata.getD (.obj [])
      queue := v.queue.getD "default" }
  | none, _ => .error (.database "null value in column \"kind\" of relation \"eddyq_jobs\" violates not-null constraint")
  | _, none => .error (.database
      "null value in column \"payload\" of relation \"eddyq_jobs\" violates not-null constraint")

/-- The local variables of `eddyq_enqueue_many`. -/
structure SqlVars where
  inserted : Nat := 0
  skipped : Nat := 0
  anyDue : Bool := false
  groups : List String := []

/-- What the loop notes about an item. -/
def SqlVars.note (x : SqlVars) (v : SqlItem) (now : ℤ) : Option JobId → SqlVars
  | some _ =>
    { x with
      inserted := x.inserted + 1
      anyDue := x.anyDue || v.scheduled_at.getD now ≤ now
      groups := match v.group_key with
        | some g => if g ∈ x.groups then x.groups else x.groups ++ [g]
        | none => x.groups }
  | none => { x with skipped := x.skipped + 1 }

/-- The loop over the items. -/
def sqlLoop (db : Db) : List SqlItem → ℤ → SqlVars → Except Error (Db × SqlVars)
  | [], _, x => .ok (db, x)
  | v :: vs, now, x => do
    let r ← v.request now
    let (db, id) ← insertRow db r now
    sqlLoop db vs now (x.note v now id)

/-- `eddyq_enqueue_many`. -/
def sqlEnqueueMany (db : Db) (vs : List SqlItem) (now : ℤ) : Except Error (Db × SqlVars) := do
  let (db, x) ← sqlLoop db vs now {}
  return (← materializeAll db x.groups now, x)

/-- `eddyq_enqueue_many` in a transaction of its own. -/
def sqlPath (db : Db) (vs : List SqlItem) (now : ℤ) : Outcome :=
  match sqlEnqueueMany db vs now with
  | .ok (db', x) => ⟨db', some (x.inserted, x.skipped), x.anyDue && 0 < x.inserted⟩
  | .error _ => ⟨db, none, false⟩

/-- The JSON of a request, with snake_case keys. -/
def toItem (r : DynEnqueue) : SqlItem where
  kind := some r.kind
  payload := some r.payload
  priority := some r.priority
  max_attempts := some r.maxAttempts
  scheduled_at := r.scheduledAt
  unique_key := r.uniqueKey
  group_key := r.groupKey
  tags := some r.tags
  metadata := some r.metadata
  queue := some r.queue

/-- A request with a valid queue name and only what all three paths can store. -/
structure Plain (r : DynEnqueue) : Prop where
  name : validateQueueName r.queue = .ok ()
  batch : r.batchId = none
  stalls : r.maxStalledCount = 1

/-- A row but for its id and the time it was inserted. -/
def JobRow.content (j : JobRow) : JobRow := { j with id := 0, createdAt := 0 }

/-- Two outcomes with the same job rows, group rows, totals and notification. -/
structure Outcome.Same (o o' : Outcome) : Prop where
  jobs : o.db.jobs.map JobRow.content = o'.db.jobs.map JobRow.content
  groups : o.db.groups.Perm o'.db.groups
  totals : o.totals = o'.totals
  notified : o.notified = o'.notified

/-- **The paths agree**: the three outcomes are the same, the totals add up, and workers are notified iff some inserted job
is due. -/
structure PathsAgree (db : Db) (rs : List DynEnqueue) (now : ℤ) : Prop where
  row : (bulkPath db rs now).Same (rowPath db rs now)
  sql : (bulkPath db rs now).Same (sqlPath db (rs.map toItem) now)
  totals : ∃ i k, i + k = rs.length ∧ (bulkPath db rs now).totals = some (i, k)
  notified : (bulkPath db rs now).notified =
    ((bulkPath db rs now).db.jobs.drop db.jobs.length).any (·.scheduledAt ≤ now)

/-! ## Which requests are inserted -/

/-- A live job holds the request's kind and unique key, or an earlier request has them. -/
def duplicate (jobs : List JobRow) (earlier : List DynEnqueue) (r : DynEnqueue) : Bool :=
  r.uniqueKey.any (fun k => jobs.any (·.holds r.kind k) || earlier.any (fun e => e.kind = r.kind && e.uniqueKey = some k))

/-- The requests that are no duplicates. -/
def fresh (jobs : List JobRow) : List DynEnqueue → List DynEnqueue → List DynEnqueue
  | _, [] => []
  | earlier, r :: rs =>
    if duplicate jobs earlier r then fresh jobs (earlier ++ [r]) rs else r :: fresh jobs (earlier ++ [r]) rs

/-- Their rows; the sequence moves for duplicates too. -/
def newRows (jobs : List JobRow) (now : ℤ) : List DynEnqueue → Nat → List DynEnqueue → List JobRow
  | _, _, [] => []
  | earlier, next, r :: rs =>
    if duplicate jobs earlier r then newRows jobs now (earlier ++ [r]) (next + 1) rs
    else newJob r next now :: newRows jobs now (earlier ++ [r]) (next + 1) rs

section Fresh

variable {jobs : List JobRow} {now : ℤ}

theorem newRows_due : ∀ (rs earlier : List DynEnqueue) (next : Nat),
    (newRows jobs now earlier next rs).any (·.scheduledAt ≤ now) = (fresh jobs earlier rs).any (dueNow now)
  | [], _, _ => rfl
  | r :: rs, earlier, next => by
    unfold newRows fresh
    split
    · exact newRows_due rs _ _
    · rw [List.any_cons, List.any_cons, newRows_due rs]
      rfl

theorem fresh_sublist : ∀ (rs earlier : List DynEnqueue), (fresh jobs earlier rs).Sublist rs
  | [], _ => .slnil
  | r :: rs, earlier => by
    unfold fresh
    split
    · exact (fresh_sublist rs _).cons r
    · exact (fresh_sublist rs _).cons_cons r

theorem fresh_skip {earlier rs : List DynEnqueue} {r : DynEnqueue} (hd : duplicate jobs earlier r = true) :
    fresh jobs earlier (r :: rs) = fresh jobs (earlier ++ [r]) rs := if_pos hd

theorem fresh_insert {earlier rs : List DynEnqueue} {r : DynEnqueue} (hd : duplicate jobs earlier r = false) :
    fresh jobs earlier (r :: rs) = r :: fresh jobs (earlier ++ [r]) rs := if_neg (Bool.eq_false_iff.mp hd)

/-- The live holders are those of the table and of the requests so far. -/
def HeldBy (jobs : List JobRow) (earlier : List DynEnqueue) (db : Db) : Prop := ∀ kind key,
  db.jobs.any (·.holds kind key) =
    (jobs.any (·.holds kind key) || earlier.any (fun e => e.kind = kind && e.uniqueKey = some key))

theorem HeldBy.start (db : Db) : HeldBy db.jobs [] db := by
  intro kind key
  simp

/-- A request without a batch is inserted unless it is a duplicate. -/
theorem insertRow_eq {earlier : List DynEnqueue} {db : Db} {r : DynEnqueue} (h : HeldBy jobs earlier db)
    (hb : r.batchId = none) : insertRow db r now =
      if duplicate jobs earlier r then .ok ({ db with nextJob := db.nextJob + 1 }, none)
      else .ok ({ db with nextJob := db.nextJob + 1, jobs := db.jobs ++ [newJob r db.nextJob now] }, some db.nextJob) := by
  have hdup : r.uniqueKey.any (fun k => db.jobs.any (·.holds r.kind k)) = duplicate jobs earlier r := by
    unfold duplicate
    congr 1
    funext k
    exact h r.kind k
  unfold insertRow
  dsimp only
  rw [hdup, hb]
  split
  · rfl
  · rfl

/-- A duplicate holds nothing new. -/
theorem HeldBy.skip {earlier : List DynEnqueue} {db : Db} {r : DynEnqueue} (h : HeldBy jobs earlier db)
    (hd : duplicate jobs earlier r = true) (n : Nat) : HeldBy jobs (earlier ++ [r]) { db with nextJob := n } := by
  intro kind key
  have hbase := h kind key
  dsimp only
  rw [hbase, List.any_append]
  by_cases hr : r.kind = kind ∧ r.uniqueKey = some key
  · obtain ⟨rfl, hu⟩ := hr
    simp only [duplicate, hu, Option.any_some] at hd
    simp [hd, hu]
  · have hnot : (r.kind = kind && r.uniqueKey = some key) = false := by simpa using hr
    simp [hnot]

/-- A new job holds its kind and unique key. -/
theorem HeldBy.insert {earlier : List DynEnqueue} {db : Db} (h : HeldBy jobs earlier db) (r : DynEnqueue) (t : ℤ)
    (gs : List GroupRow) : HeldBy jobs (earlier ++ [r])
      { db with nextJob := db.nextJob + 1, jobs := db.jobs ++ [newJob r db.nextJob t], groups := gs } := by
  intro kind key
  have hnew : (newJob r db.nextJob t).holds kind key = (r.kind = kind && r.uniqueKey = some key) := rfl
  dsimp only
  rw [List.any_append, h kind key, List.any_append]
  simp [hnew, Bool.or_assoc]

end Fresh

/-! ## Which group rows are made -/

/-- The best rule for a key, as `materialize_from_rule` picks it. -/
def bestRule (rules : List RuleRow) (key : String) : Except Error (Option RuleRow) := do
  let hits ← matchingRules key rules
  return (orderBy ruleLe hits).head?

/-- No pattern fails on the key, and the best rule is one that `eddyq_groups` can store. -/
def RulesOk (rules : List RuleRow) (key : String) : Prop :=
  ∃ o, bestRule rules key = .ok o ∧ ∀ r ∈ o, 0 ≤ r.maxConcurrency.getD unlimited

/-- The row that is made for a key: none if it has one or no rule matches. -/
def groupDue (rules : List RuleRow) (groups : List GroupRow) (now : ℤ) (key : String) : Option GroupRow :=
  if groups.any (·.key = key) then none
  else match bestRule rules key with
    | .ok (some r) => some (r.toGroup key now)
    | _ => none

/-- The rows after the keys of a list. -/
def addGroups (rules : List RuleRow) (now : ℤ) (groups : List GroupRow) (keys : List String) : List GroupRow :=
  keys.foldl (fun gs key => gs ++ (groupDue rules gs now key).toList) groups

section Groups

variable {rules : List RuleRow} {now : ℤ}

theorem materializeFromRule_done {db : Db} {key : String} (h : RulesOk db.rules key) :
    materializeFromRule db key now = .ok { db with groups := addGroups db.rules now db.groups [key] } := by
  obtain ⟨o, ho, hok⟩ := h
  unfold bestRule at ho
  obtain ⟨hits, hm, ho⟩ := bind_eq_ok ho
  have hbest : bestRule db.rules key = .ok o := by rw [bestRule, hm]; exact ho
  have ho : (orderBy ruleLe hits).head? = o := Except.ok.inj ho
  unfold materializeFromRule
  rw [hm]
  dsimp only [bind, Except.bind]
  rw [ho]
  cases o with
  | none => simp [addGroups, groupDue, hbest]; rfl
  | some r =>
    have hneg : ¬ (r.toGroup key now).maxConcurrency < 0 := not_lt.mpr (hok r rfl)
    dsimp only
    rw [if_neg hneg]
    simp only [addGroups, List.foldl_cons, List.foldl_nil, groupDue, hbest]
    split
    · simp; rfl
    · simp; rfl

theorem materializeFromRule_fails {db : Db} {key : String} (h : ¬ RulesOk db.rules key) :
    ∃ e, materializeFromRule db key now = .error e := by
  unfold materializeFromRule
  cases hm : matchingRules key db.rules with
  | error e => exact ⟨e, rfl⟩
  | ok hits =>
    dsimp only [bind, Except.bind]
    split
    · next hnone => exact absurd ⟨none, by rw [bestRule, hm]; exact congrArg Except.ok hnone, nofun⟩ h
    · next r hr =>
      split
      · exact ⟨_, rfl⟩
      · next hneg =>
        refine absurd ⟨some r, by rw [bestRule, hm]; exact congrArg Except.ok hr, fun r' hr' => ?_⟩ h
        cases hr'
        exact not_lt.mp hneg

/-- Making the rows of several keys. -/
theorem materializeAll_done : ∀ (keys : List String) {db : Db}, (∀ key ∈ keys, RulesOk db.rules key) →
    materializeAll db keys now = .ok { db with groups := addGroups db.rules now db.groups keys }
  | [], _, _ => rfl
  | key :: keys, db, h => by
    unfold materializeAll
    rw [materializeFromRule_done (h key List.mem_cons_self)]
    exact materializeAll_done keys (fun k hk => h k (List.mem_cons_of_mem _ hk))

theorem materializeAll_fails : ∀ (keys : List String) {db : Db} {key : String}, key ∈ keys → ¬ RulesOk db.rules key →
    ∃ e, materializeAll db keys now = .error e
  | k :: keys, db, key, hmem, h => by
    unfold materializeAll
    by_cases hk : RulesOk db.rules k
    · rw [materializeFromRule_done hk]
      rcases List.mem_cons.mp hmem with rfl | hmem
      · exact absurd hk h
      · exact @materializeAll_fails keys { db with groups := addGroups db.rules now db.groups [k] } key hmem h
    · obtain ⟨e, he⟩ := @materializeFromRule_fails now db k hk
      exact ⟨e, by rw [he]; rfl⟩

theorem groupDue_key {groups : List GroupRow} {key : String} {g : GroupRow} (h : groupDue rules groups now key = some g) :
    g.key = key := by
  unfold groupDue at h
  split at h
  · cases h
  · split at h
    · cases h
      rfl
    · cases h

/-- A row that has been made is not made again, and the others are made as before. -/
theorem groupDue_append (groups : List GroupRow) (key k : String) :
    groupDue rules (groups ++ (groupDue rules groups now key).toList) now k =
      if k = key then none else groupDue rules groups now k := by
  cases hkey : groupDue rules groups now key with
  | none =>
    rw [Option.toList_none, List.append_nil]
    split
    · next h => rw [h, hkey]
    · rfl
  | some g =>
    have hg := groupDue_key hkey
    unfold groupDue
    simp only [Option.toList_some, List.any_append, List.any_cons, List.any_nil, Bool.or_false, hg]
    by_cases hk : k = key
    · simp [hk]
    · simp [hk, Ne.symm hk]

/-- **The rows of a list of keys**: one for each key that is due one. -/
theorem addGroups_eq : ∀ (keys : List String) (groups : List GroupRow),
    ∃ ks : List String, ks.Nodup ∧ (∀ k, k ∈ ks ↔ k ∈ keys) ∧
      addGroups rules now groups keys = groups ++ ks.filterMap (groupDue rules groups now)
  | [], groups => ⟨[], List.nodup_nil, fun _ => Iff.rfl, by simp [addGroups]⟩
  | key :: keys, groups => by
    obtain ⟨ks, hnd, hmem, heq⟩ := addGroups_eq keys (groups ++ (groupDue rules groups now key).toList)
    refine ⟨key :: ks.filter (· ≠ key), ?_, fun k => ?_, ?_⟩
    · exact List.nodup_cons.mpr ⟨by simp, hnd.filter _⟩
    · simp only [List.mem_cons, List.mem_filter, hmem, decide_eq_true_eq]
      by_cases hk : k = key
      · simp [hk]
      · simp [hk]
    · have hrest : ks.filterMap (groupDue rules (groups ++ (groupDue rules groups now key).toList) now) =
          (ks.filter (· ≠ key)).filterMap (groupDue rules groups now) := by
        rw [List.filterMap_filter]
        refine List.filterMap_congr (fun k _ => ?_)
        rw [groupDue_append]
        by_cases hk : k = key
        · simp [hk]
        · simp [hk]
      have hcons : addGroups rules now groups (key :: keys) =
          addGroups rules now (groups ++ (groupDue rules groups now key).toList) keys := rfl
      rw [hcons, heq, hrest, List.append_assoc, List.filterMap_cons]
      cases groupDue rules groups now key with
      | none => simp
      | some g => simp

/-- Two lists of keys make the same rows when they have the same keys that are due one. -/
theorem addGroups_perm (groups : List GroupRow) {keys keys' : List String}
    (h : ∀ k, (groupDue rules groups now k).isSome → (k ∈ keys ↔ k ∈ keys')) :
    (addGroups rules now groups keys).Perm (addGroups rules now groups keys') := by
  obtain ⟨ks, hnd, hmem, heq⟩ := @addGroups_eq rules now keys groups
  obtain ⟨ks', hnd', hmem', heq'⟩ := @addGroups_eq rules now keys' groups
  rw [heq, heq']
  refine List.Perm.append_left _ ?_
  have hdue : ∀ l : List String, l.filterMap (groupDue rules groups now) =
      (l.filter (fun k => (groupDue rules groups now k).isSome)).filterMap (groupDue rules groups now) := by
    intro l
    rw [List.filterMap_filter]
    refine List.filterMap_congr (fun k _ => ?_)
    cases groupDue rules groups now k <;> rfl
  rw [hdue ks, hdue ks']
  refine List.Perm.filterMap _ ((List.perm_ext_iff_of_nodup (hnd.filter _) (hnd'.filter _)).mpr fun k => ?_)
  simp only [List.mem_filter, hmem, hmem']
  exact ⟨fun hk => ⟨(h k hk.2).mp hk.1, hk.2⟩, fun hk => ⟨(h k hk.2).mpr hk.1, hk.2⟩⟩

/-- A key that is due a row has one afterwards iff it is in the list. -/
theorem mem_addGroups {groups : List GroupRow} {keys : List String} {k : String}
    (hdue : (groupDue rules groups now k).isSome) :
    (∃ g ∈ addGroups rules now groups keys, g.key = k) ↔ k ∈ keys := by
  obtain ⟨ks, -, hmem, heq⟩ := @addGroups_eq rules now keys groups
  have hnew : ∀ g ∈ groups, g.key ≠ k := by
    intro g hg hk
    have hany : groups.any (·.key = k) = true := List.any_eq_true.mpr ⟨g, hg, by simpa using hk⟩
    rw [groupDue, if_pos hany] at hdue
    cases hdue
  rw [heq, ← hmem]
  constructor
  · rintro ⟨g, hg, hk⟩
    rcases List.mem_append.mp hg with hg | hg
    · exact absurd hk (hnew g hg)
    · obtain ⟨k', hk', hg⟩ := List.mem_filterMap.mp hg
      rw [← hk, groupDue_key hg]
      exact hk'
  · intro hk
    obtain ⟨g, hg⟩ := Option.isSome_iff_exists.mp hdue
    exact ⟨g, List.mem_append_right _ (List.mem_filterMap.mpr ⟨k, hk, hg⟩), groupDue_key hg⟩

end Groups

/-! ## What each path does -/

section Paths

variable {jobs : List JobRow} {now : ℤ}

/-- The tables with the new rows of a list of requests, and the groups `gs`. -/
def entered (db : Db) (jobs : List JobRow) (earlier rs : List DynEnqueue) (now : ℤ) (gs : List GroupRow) : Db :=
  { db with
    jobs := db.jobs ++ newRows jobs now earlier db.nextJob rs
    nextJob := db.nextJob + rs.length
    groups := gs }

/-- The keys of some requests. -/
def keysOf (rs : List DynEnqueue) : List String := rs.filterMap (·.groupKey)

theorem mem_keysOf {rs : List DynEnqueue} {key : String} : key ∈ keysOf rs ↔ ∃ r ∈ rs, r.groupKey = some key :=
  List.mem_filterMap

theorem mem_distinctGroups {rs : List DynEnqueue} {key : String} : key ∈ distinctGroups rs ↔ key ∈ keysOf rs := by
  rw [distinctGroups, List.mem_dedup, mem_orderBy]
  rfl

/-- The rows that come after a duplicate. -/
theorem entered_skip {db : Db} {earlier rs : List DynEnqueue} {r : DynEnqueue} (hd : duplicate jobs earlier r = true)
    (gs : List GroupRow) : entered { db with nextJob := db.nextJob + 1 } jobs (earlier ++ [r]) rs now gs =
      entered db jobs earlier (r :: rs) now gs := by
  simp only [entered, newRows, hd, if_true, List.length_cons]
  congr 1
  omega

/-- The rows that come after a new job. -/
theorem entered_insert {db : Db} {earlier rs : List DynEnqueue} {r : DynEnqueue} (hd : duplicate jobs earlier r = false)
    (gs' gs : List GroupRow) : entered { db with
        nextJob := db.nextJob + 1, jobs := db.jobs ++ [newJob r db.nextJob now], groups := gs' } jobs
        (earlier ++ [r]) rs now gs = entered db jobs earlier (r :: rs) now gs := by
  simp only [entered, newRows, hd, Bool.false_eq_true, if_false, List.length_cons, List.append_assoc, List.singleton_append]
  congr 1
  omega

/-- The bulk insert. -/
theorem insertRows_eq : ∀ (rs : List DynEnqueue) {earlier : List DynEnqueue} {db : Db}, (∀ r ∈ rs, r.batchId = none) →
    HeldBy jobs earlier db →
    insertRows db rs now = .ok (entered db jobs earlier rs now db.groups, (fresh jobs earlier rs).length)
  | [], earlier, db, _, _ => by simp [insertRows, entered, newRows, fresh]
  | r :: rs, earlier, db, hb, h => by
    have hrest : ∀ r ∈ rs, r.batchId = none := fun x hx => hb x (List.mem_cons_of_mem _ hx)
    unfold insertRows
    rw [insertRow_eq h (hb r List.mem_cons_self)]
    cases hd : duplicate jobs earlier r with
    | true =>
      have ih := insertRows_eq rs hrest (h.skip hd (db.nextJob + 1))
      rw [entered_skip hd] at ih
      simp only [if_true, bind, Except.bind, ih, pure, Except.pure, fresh, hd, Option.isSome_none, Bool.false_eq_true,
        if_false]
    | false =>
      have ih := insertRows_eq rs hrest (h.insert r now db.groups)
      have hsame := @entered_insert jobs now db earlier rs r hd db.groups db.groups
      dsimp only at ih hsame
      rw [hsame] at ih
      simp only [Bool.false_eq_true, if_false, bind, Except.bind, ih, pure, Except.pure, fresh, hd, Option.isSome_some,
        if_true, List.length_cons]

theorem validateQueues_ok_iff : ∀ {rs : List DynEnqueue},
    validateQueues rs = .ok () ↔ ∀ r ∈ rs, validateQueueName r.queue = .ok ()
  | [] => by simp [validateQueues]
  | r :: rs => by
    rw [validateQueues, List.forall_mem_cons, ← validateQueues_ok_iff]
    cases validateQueueName r.queue with
    | error e => simp [bind, Except.bind]
    | ok u => simp [bind, Except.bind]

/-- The bulk path makes the rows of all keys. -/
theorem enqueueManyDyn_done {db : Db} {rs : List DynEnqueue} (hn : ∀ r ∈ rs, validateQueueName r.queue = .ok ())
    (hb : ∀ r ∈ rs, r.batchId = none) (hr : ∀ key ∈ keysOf rs, RulesOk db.rules key) :
    enqueueManyDyn db rs now = .ok (entered db db.jobs [] rs now (addGroups db.rules now db.groups (distinctGroups rs)),
      (fresh db.jobs [] rs).length) := by
  unfold enqueueManyDyn
  split
  · next hnil =>
    rw [List.isEmpty_iff.mp hnil]
    simp [entered, newRows, fresh, distinctGroups, orderBy, addGroups]
  · rw [validateQueues_ok_iff.mpr hn]
    dsimp only [bind, Except.bind]
    rw [insertRows_eq rs hb (HeldBy.start db)]
    dsimp only
    rw [@materializeAll_done now (distinctGroups rs) (entered db db.jobs [] rs now db.groups)
      (fun key hk => hr key (mem_distinctGroups.mp hk))]
    rfl

/-- A key whose rules fail makes the bulk path fail. -/
theorem enqueueManyDyn_fails {db : Db} {rs : List DynEnqueue} (hn : ∀ r ∈ rs, validateQueueName r.queue = .ok ())
    (hb : ∀ r ∈ rs, r.batchId = none) {key : String} (hk : key ∈ keysOf rs) (hr : ¬ RulesOk db.rules key) : ∃ e, enqueueManyDyn db rs now = .error e := by
  unfold enqueueManyDyn
  split
  · next hnil =>
    rw [List.isEmpty_iff.mp hnil] at hk
    cases hk
  · rw [validateQueues_ok_iff.mpr hn]
    dsimp only [bind, Except.bind]
    rw [insertRows_eq rs hb (HeldBy.start db)]
    dsimp only
    obtain ⟨e, he⟩ := @materializeAll_fails now (distinctGroups rs) (entered db db.jobs [] rs now db.groups) key
      (mem_distinctGroups.mpr hk) hr
    exact ⟨e, by rw [he]⟩

/-- So does a queue whose name is not valid. -/
theorem enqueueManyDyn_invalid {db : Db} {rs : List DynEnqueue} (hn : ¬ ∀ r ∈ rs, validateQueueName r.queue = .ok ()) :
    ∃ e, enqueueManyDyn db rs now = .error e := by
  unfold enqueueManyDyn
  split
  · next hnil =>
    rw [List.isEmpty_iff.mp hnil] at hn
    exact absurd (fun r hr => absurd hr List.not_mem_nil) hn
  · cases hv : validateQueues rs with
    | error e => exact ⟨e, rfl⟩
    | ok u => exact absurd (validateQueues_ok_iff.mp hv) hn

/-- `enqueue_dyn` of a duplicate. -/
theorem enqueueDyn_skip {db : Db} {earlier : List DynEnqueue} {r : DynEnqueue} (hp : Plain r) (h : HeldBy jobs earlier db)
    (hd : duplicate jobs earlier r = true) :
    enqueueDyn db r now = ({ db with nextJob := db.nextJob + 1 }, .ok none) := by
  have hins : insertDyn db r now = .ok ({ db with nextJob := db.nextJob + 1 }, none) := by
    unfold insertDyn
    rw [hp.name, insertRow_eq h hp.batch, hd]
    rfl
  rw [enqueueDyn, hins]

/-- `enqueue_dyn` of a new request. -/
theorem enqueueDyn_insert {db : Db} {earlier : List DynEnqueue} {r : DynEnqueue} (hp : Plain r) (h : HeldBy jobs earlier db)
    (hd : duplicate jobs earlier r = false) (hr : ∀ key, r.groupKey = some key → RulesOk db.rules key) :
    enqueueDyn db r now = ({ db with
      nextJob := db.nextJob + 1
      jobs := db.jobs ++ [newJob r db.nextJob now]
      groups := addGroups db.rules now db.groups r.groupKey.toList }, .ok (some db.nextJob)) := by
  have hins : insertDyn db r now = .ok ({ db with
      nextJob := db.nextJob + 1
      jobs := db.jobs ++ [newJob r db.nextJob now]
      groups := addGroups db.rules now db.groups r.groupKey.toList }, some db.nextJob) := by
    have hrow : insertRow db r now = .ok ({ db with
        nextJob := db.nextJob + 1, jobs := db.jobs ++ [newJob r db.nextJob now] }, some db.nextJob) := by
      rw [insertRow_eq h hp.batch, hd]
      rfl
    unfold insertDyn
    rw [hp.name, hrow]
    dsimp only [bind, Except.bind]
    cases hk : r.groupKey with
    | none => rfl
    | some key =>
      dsimp only
      rw [@materializeFromRule_done now { db with
        nextJob := db.nextJob + 1, jobs := db.jobs ++ [newJob r db.nextJob now] } key (hr key hk)]
      rfl
  rw [enqueueDyn, hins]

/-- The row-by-row path makes the rows of the keys of new requests. -/
theorem rowPath_eq : ∀ (rs : List DynEnqueue) {earlier : List DynEnqueue} {db : Db}, (∀ r ∈ rs, Plain r) →
    (∀ key ∈ keysOf rs, RulesOk db.rules key) → HeldBy jobs earlier db →
    rowPath db rs now =
      { db := entered db jobs earlier rs now (addGroups db.rules now db.groups (keysOf (fresh jobs earlier rs)))
        totals := some ((fresh jobs earlier rs).length, rs.length - (fresh jobs earlier rs).length)
        notified := (fresh jobs earlier rs).any (dueNow now) }
  | [], earlier, db, _, _, _ => by simp [rowPath, entered, newRows, fresh, keysOf, addGroups]
  | r :: rs, earlier, db, hp, hr, h => by
    have hp' : ∀ r ∈ rs, Plain r := fun x hx => hp x (List.mem_cons_of_mem _ hx)
    have hr' : ∀ key ∈ keysOf rs, RulesOk db.rules key := by
      intro key hk
      obtain ⟨x, hx, hkey⟩ := mem_keysOf.mp hk
      exact hr key (mem_keysOf.mpr ⟨x, List.mem_cons_of_mem _ hx, hkey⟩)
    have hle : ∀ e, (fresh jobs e rs).length ≤ rs.length := fun e => (fresh_sublist rs e).length_le
    unfold rowPath
    cases hd : duplicate jobs earlier r with
    | true =>
      have ih := @rowPath_eq rs (earlier ++ [r]) { db with nextJob := db.nextJob + 1 } hp' hr' (h.skip hd (db.nextJob + 1))
      rw [entered_skip hd] at ih
      rw [enqueueDyn_skip (hp r List.mem_cons_self) h hd]
      dsimp only
      rw [ih, fresh_skip hd]
      simp only [Option.map_some, List.length_cons]
      have := hle (earlier ++ [r])
      congr 3
      omega
    | false =>
      have hrk : ∀ key, r.groupKey = some key → RulesOk db.rules key := fun key hk =>
        hr key (mem_keysOf.mpr ⟨r, List.mem_cons_self, hk⟩)
      have ih := @rowPath_eq rs (earlier ++ [r]) { db with
        nextJob := db.nextJob + 1
        jobs := db.jobs ++ [newJob r db.nextJob now]
        groups := addGroups db.rules now db.groups r.groupKey.toList } hp' hr' (h.insert r now _)
      have hsame := @entered_insert jobs now db earlier rs r hd (addGroups db.rules now db.groups r.groupKey.toList)
        (addGroups db.rules now (addGroups db.rules now db.groups r.groupKey.toList)
          (keysOf (fresh jobs (earlier ++ [r]) rs)))
      have hkeys : addGroups db.rules now (addGroups db.rules now db.groups r.groupKey.toList)
          (keysOf (fresh jobs (earlier ++ [r]) rs)) =
          addGroups db.rules now db.groups (keysOf (r :: fresh jobs (earlier ++ [r]) rs)) := by
        rw [addGroups, addGroups, addGroups, ← List.foldl_append]
        congr 1
        rw [keysOf, keysOf, List.filterMap_cons]
        cases r.groupKey <;> rfl
      dsimp only at ih hsame
      rw [hsame, hkeys] at ih
      rw [enqueueDyn_insert (hp r List.mem_cons_self) h hd hrk]
      dsimp only
      rw [ih, fresh_insert hd]
      simp only [Option.map_some, List.length_cons, List.any_cons]
      have := hle (earlier ++ [r])
      congr 3
      omega

/-- The SQL function inserts the row of the request. -/
theorem toItem_request {r : DynEnqueue} (hp : Plain r) (db : Db) :
    ∃ r', (toItem r).request now = .ok r' ∧ insertRow db r' now = insertRow db r now := by
  refine ⟨_, rfl, ?_⟩
  unfold insertRow newJob
  simp [toItem, hp.batch, hp.stalls]

/-- The groups that the loop has noted. -/
theorem mem_note_groups {x : SqlVars} {r : DynEnqueue} {id : JobId} {key : String} :
    key ∈ (x.note (toItem r) now (some id)).groups ↔ key ∈ x.groups ∨ r.groupKey = some key := by
  simp only [SqlVars.note, toItem]
  cases r.groupKey with
  | none => simp
  | some g =>
    dsimp only
    split
    · next hg =>
      simp only [Option.some.injEq]
      exact ⟨Or.inl, fun h => h.elim (fun h => h) (fun he => he ▸ hg)⟩
    · simp [eq_comm]

/-- What the loop has done: the new rows, and what its variables say about them. -/
structure SqlDone (jobs : List JobRow) (earlier rs : List DynEnqueue) (now : ℤ) (x x' : SqlVars) : Prop where
  inserted : x'.inserted = x.inserted + (fresh jobs earlier rs).length
  skipped : x'.skipped = x.skipped + (rs.length - (fresh jobs earlier rs).length)
  anyDue : x'.anyDue = (x.anyDue || (fresh jobs earlier rs).any (dueNow now))
  groups : ∀ key, key ∈ x'.groups ↔ key ∈ x.groups ∨ key ∈ keysOf (fresh jobs earlier rs)

/-- A duplicate before the rest. -/
theorem SqlDone.skip {earlier rs : List DynEnqueue} {r : DynEnqueue} {x x' : SqlVars} (hd : duplicate jobs earlier r = true)
    (h : SqlDone jobs (earlier ++ [r]) rs now (x.note (toItem r) now none) x') : SqlDone jobs earlier (r :: rs) now x x' := by
  have hlen : (fresh jobs (earlier ++ [r]) rs).length ≤ rs.length := (fresh_sublist rs _).length_le
  constructor
  · rw [h.inserted, fresh_skip hd]
    rfl
  · rw [h.skipped, fresh_skip hd, List.length_cons]
    simp only [SqlVars.note]
    omega
  · rw [h.anyDue, fresh_skip hd]
    rfl
  · intro key
    rw [h.groups, fresh_skip hd]
    rfl

/-- A new request before the rest. -/
theorem SqlDone.insert {earlier rs : List DynEnqueue} {r : DynEnqueue} {x x' : SqlVars} {id : JobId}
    (hd : duplicate jobs earlier r = false)
    (h : SqlDone jobs (earlier ++ [r]) rs now (x.note (toItem r) now (some id)) x') :
    SqlDone jobs earlier (r :: rs) now x x' := by
  have hlen : (fresh jobs (earlier ++ [r]) rs).length ≤ rs.length := (fresh_sublist rs _).length_le
  constructor
  · rw [h.inserted, fresh_insert hd, List.length_cons]
    simp only [SqlVars.note]
    omega
  · rw [h.skipped, fresh_insert hd, List.length_cons, List.length_cons]
    simp only [SqlVars.note]
    omega
  · rw [h.anyDue, fresh_insert hd, List.any_cons, ← Bool.or_assoc]
    rfl
  · intro key
    have hcons : key ∈ keysOf (r :: fresh jobs (earlier ++ [r]) rs) ↔
        r.groupKey = some key ∨ key ∈ keysOf (fresh jobs (earlier ++ [r]) rs) := by
      simp [mem_keysOf]
    rw [h.groups, fresh_insert hd, mem_note_groups, hcons, or_assoc]

/-- The loop of the SQL function. -/
theorem sqlLoop_eq : ∀ (rs : List DynEnqueue) {earlier : List DynEnqueue} {db : Db} (x : SqlVars), (∀ r ∈ rs, Plain r) →
    HeldBy jobs earlier db → ∃ x', sqlLoop db (rs.map toItem) now x = .ok (entered db jobs earlier rs now db.groups, x') ∧
      SqlDone jobs earlier rs now x x'
  | [], earlier, db, x, _, _ => by
    refine ⟨x, by simp [sqlLoop, entered, newRows], ?_⟩
    constructor <;> simp [fresh, keysOf]
  | r :: rs, earlier, db, x, hp, h => by
    have hp' : ∀ r ∈ rs, Plain r := fun y hy => hp y (List.mem_cons_of_mem _ hy)
    obtain ⟨r', hr', hrow⟩ := @toItem_request now r (hp r List.mem_cons_self) db
    have hbatch := (hp r List.mem_cons_self).batch
    rw [List.map_cons]
    unfold sqlLoop
    rw [hr']
    dsimp only [bind, Except.bind]
    rw [hrow, insertRow_eq h hbatch]
    cases hd : duplicate jobs earlier r with
    | true =>
      obtain ⟨x', hx', hdone⟩ := @sqlLoop_eq rs (earlier ++ [r]) { db with nextJob := db.nextJob + 1 }
        (x.note (toItem r) now none) hp' (h.skip hd (db.nextJob + 1))
      rw [entered_skip hd] at hx'
      exact ⟨x', hx', hdone.skip hd⟩
    | false =>
      obtain ⟨x', hx', hdone⟩ := @sqlLoop_eq rs (earlier ++ [r]) { db with
        nextJob := db.nextJob + 1, jobs := db.jobs ++ [newJob r db.nextJob now] }
        (x.note (toItem r) now (some db.nextJob)) hp' (h.insert r now db.groups)
      have hsame := @entered_insert jobs now db earlier rs r hd db.groups db.groups
      dsimp only at hx' hsame
      rw [hsame] at hx'
      exact ⟨x', hx', hdone.insert hd⟩

/-- The SQL function makes the rows of the keys of new requests. -/
theorem sqlPath_eq {db : Db} {rs : List DynEnqueue} (hp : ∀ r ∈ rs, Plain r)
    (hr : ∀ key ∈ keysOf rs, RulesOk db.rules key) : ∃ keys,
      (∀ key, key ∈ keys ↔ key ∈ keysOf (fresh db.jobs [] rs)) ∧ sqlPath db (rs.map toItem) now =
        { db := entered db db.jobs [] rs now (addGroups db.rules now db.groups keys)
          totals := some ((fresh db.jobs [] rs).length, rs.length - (fresh db.jobs [] rs).length)
          notified := (fresh db.jobs [] rs).any (dueNow now) } := by
  obtain ⟨x, hx, hdone⟩ := @sqlLoop_eq db.jobs now rs [] db {} hp (HeldBy.start db)
  have hgroups : ∀ key, key ∈ x.groups ↔ key ∈ keysOf (fresh db.jobs [] rs) := by
    intro key
    rw [hdone.groups]
    simp
  have hrules : ∀ key ∈ x.groups, RulesOk db.rules key := by
    intro key hk
    obtain ⟨r, hr', hkey⟩ := mem_keysOf.mp ((hgroups key).mp hk)
    exact hr key (mem_keysOf.mpr ⟨r, (fresh_sublist rs []).subset hr', hkey⟩)
  have hcall : sqlEnqueueMany db (rs.map toItem) now =
      .ok (entered db db.jobs [] rs now (addGroups db.rules now db.groups x.groups), x) := by
    unfold sqlEnqueueMany
    rw [hx]
    dsimp only [bind, Except.bind]
    rw [@materializeAll_done now x.groups (entered db db.jobs [] rs now db.groups) hrules]
    rfl
  have hins : x.inserted = (fresh db.jobs [] rs).length := by
    rw [hdone.inserted]
    exact Nat.zero_add _
  have hskip : x.skipped = rs.length - (fresh db.jobs [] rs).length := by
    rw [hdone.skipped]
    exact Nat.zero_add _
  have hdue : x.anyDue = (fresh db.jobs [] rs).any (dueNow now) := hdone.anyDue
  refine ⟨x.groups, hgroups, ?_⟩
  rw [sqlPath, hcall]
  simp only [hins, hskip, hdue]
  cases fresh db.jobs [] rs with
  | nil => rfl
  | cons r l => simp

end Paths

/-! ## When they agree -/

/-- A rule matches the key, and it has no row. -/
def NeedsRow (db : Db) (key : String) : Prop :=
  db.groups.all (·.key ≠ key) ∧ ∃ r ∈ db.rules, likeMatch (likePattern r.pattern) key.toList = .ok true

/-- Every key of a request has rules that do not fail; a key that needs a row is that of a new request; and if there are
new requests and due ones, there is one that is both. -/
structure PathsCondition (db : Db) (rs : List DynEnqueue) (now : ℤ) : Prop where
  rules : ∀ key ∈ keysOf rs, RulesOk db.rules key
  groups : ∀ key ∈ keysOf rs, NeedsRow db key → key ∈ keysOf (fresh db.jobs [] rs)
  due : fresh db.jobs [] rs ≠ [] → rs.any (dueNow now) → (fresh db.jobs [] rs).any (dueNow now)

theorem matchingRules_ne_nil : ∀ {rules : List RuleRow} {key : String} {hits : List RuleRow},
    matchingRules key rules = .ok hits →
    (hits ≠ [] ↔ ∃ r ∈ rules, likeMatch (likePattern r.pattern) key.toList = .ok true)
  | [], key, hits, h => by
    cases h
    simp
  | r :: rules, key, hits, h => by
    unfold matchingRules at h
    obtain ⟨hit, hm, h⟩ := bind_eq_ok h
    obtain ⟨rest, hrest, h⟩ := bind_eq_ok h
    have ih := matchingRules_ne_nil hrest
    cases h
    cases hit with
    | true => simp [hm]
    | false => simpa [hm] using ih

/-- A key is due a row iff it needs one. -/
theorem groupDue_isSome {db : Db} {now : ℤ} {key : String} (h : RulesOk db.rules key) :
    (groupDue db.rules db.groups now key).isSome ↔ NeedsRow db key := by
  obtain ⟨o, ho, -⟩ := h
  have hbest := ho
  unfold bestRule at ho
  obtain ⟨hits, hm, ho⟩ := bind_eq_ok ho
  have ho : (orderBy ruleLe hits).head? = o := Except.ok.inj ho
  have hlen := (perm_orderBy ruleLe hits).length_eq
  have hsome : o.isSome ↔ hits ≠ [] := by
    rw [← ho, List.isSome_head?, ← List.length_pos_iff, ← List.length_pos_iff, hlen]
  unfold groupDue NeedsRow
  rw [hbest, ← matchingRules_ne_nil hm, ← hsome]
  by_cases hg : db.groups.any (·.key = key) = true
  · obtain ⟨g, hmem, hk⟩ := List.any_eq_true.mp hg
    rw [if_pos hg]
    refine ⟨nofun, fun hall => ?_⟩
    have := List.all_eq_true.mp hall.1 g hmem
    simp_all
  · have hall : db.groups.all (·.key ≠ key) = true := by
      simpa [List.any_eq_true] using hg
    rw [if_neg hg]
    cases o with
    | none => simp
    | some r => exact ⟨fun _ => ⟨hall, rfl⟩, fun _ => rfl⟩

/-! ### From the condition -/

section Agree

variable {db : Db} {rs : List DynEnqueue} {now : ℤ}

theorem bulkPath_eq (hp : ∀ r ∈ rs, Plain r) (hr : ∀ key ∈ keysOf rs, RulesOk db.rules key) : bulkPath db rs now =
    { db := entered db db.jobs [] rs now (addGroups db.rules now db.groups (distinctGroups rs))
      totals := some ((fresh db.jobs [] rs).length, rs.length - (fresh db.jobs [] rs).length)
      notified := rs.any (dueNow now) && 0 < (fresh db.jobs [] rs).length } := by
  rw [bulkPath, enqueueManyDyn_done (fun r hr => (hp r hr).name) (fun r hr => (hp r hr).batch) hr]

/-- The bulk path makes the same group rows as a path that only looks at new requests. -/
theorem PathsCondition.perm (h : PathsCondition db rs now) {keys : List String}
    (hkeys : ∀ key, key ∈ keys ↔ key ∈ keysOf (fresh db.jobs [] rs)) :
    (addGroups db.rules now db.groups (distinctGroups rs)).Perm (addGroups db.rules now db.groups keys) := by
  refine addGroups_perm db.groups (fun key hdue => ?_)
  rw [mem_distinctGroups, hkeys]
  constructor
  · intro hk
    exact h.groups key hk ((groupDue_isSome (h.rules key hk)).mp hdue)
  · intro hk
    obtain ⟨r, hr, hkey⟩ := mem_keysOf.mp hk
    exact mem_keysOf.mpr ⟨r, (fresh_sublist rs []).subset hr, hkey⟩

/-- It notifies as they do. -/
theorem PathsCondition.notified_eq (h : PathsCondition db rs now) :
    (rs.any (dueNow now) && 0 < (fresh db.jobs [] rs).length) = (fresh db.jobs [] rs).any (dueNow now) := by
  rw [Bool.eq_iff_iff, Bool.and_eq_true, decide_eq_true_eq, List.length_pos_iff]
  constructor
  · rintro ⟨hdue, hne⟩
    exact h.due hne hdue
  · intro hdue
    obtain ⟨r, hr, hd⟩ := List.any_eq_true.mp hdue
    exact ⟨List.any_eq_true.mpr ⟨r, (fresh_sublist rs []).subset hr, hd⟩, List.ne_nil_of_mem hr⟩

/-- The jobs of a path that inserted all requests. -/
theorem drop_entered (gs : List GroupRow) :
    (entered db db.jobs [] rs now gs).jobs.drop db.jobs.length = newRows db.jobs now [] db.nextJob rs :=
  List.drop_left

theorem PathsCondition.agree (hp : ∀ r ∈ rs, Plain r) (h : PathsCondition db rs now) : PathsAgree db rs now := by
  obtain ⟨keys, hkeys, hsql⟩ := @sqlPath_eq now db rs hp h.rules
  have hrow := @rowPath_eq db.jobs now rs [] db hp h.rules (HeldBy.start db)
  have hbulk := @bulkPath_eq db rs now hp h.rules
  have hle := (fresh_sublist rs [] : (fresh db.jobs [] rs).Sublist rs).length_le
  constructor
  · rw [hbulk, hrow]
    exact ⟨rfl, h.perm fun _ => Iff.rfl, rfl, h.notified_eq⟩
  · rw [hbulk, hsql]
    exact ⟨rfl, h.perm hkeys, rfl, h.notified_eq⟩
  · rw [hbulk]
    exact ⟨_, _, by omega, rfl⟩
  · rw [hbulk]
    dsimp only
    rw [drop_entered, newRows_due, h.notified_eq]

/-! ### To the condition -/

/-- Totals are those of a bulk insert that did not fail. -/
theorem PathsAgree.rules (hp : ∀ r ∈ rs, Plain r) (h : PathsAgree db rs now) {key : String} (hk : key ∈ keysOf rs) :
    RulesOk db.rules key := by
  by_contra hr
  obtain ⟨e, he⟩ := @enqueueManyDyn_fails now db rs (fun r hr => (hp r hr).name) (fun r hr => (hp r hr).batch) key hk hr
  obtain ⟨i, k, -, htotals⟩ := h.totals
  rw [bulkPath, he] at htotals
  cases htotals

theorem PathsAgree.condition (hp : ∀ r ∈ rs, Plain r) (h : PathsAgree db rs now) : PathsCondition db rs now := by
  have hr : ∀ key ∈ keysOf rs, RulesOk db.rules key := fun key hk => h.rules hp hk
  have hrow := @rowPath_eq db.jobs now rs [] db hp hr (HeldBy.start db)
  have hbulk := @bulkPath_eq db rs now hp hr
  refine ⟨hr, fun key hk hneeds => ?_, fun hne hdue => ?_⟩
  · have hdue := (@groupDue_isSome db now key (hr key hk)).mpr hneeds
    have hperm := h.row.groups
    rw [hbulk, hrow] at hperm
    obtain ⟨g, hg, hkey⟩ := (mem_addGroups hdue).mpr (mem_distinctGroups.mpr hk)
    exact (mem_addGroups hdue).mp ⟨g, hperm.subset hg, hkey⟩
  · have hnotified := h.row.notified
    rw [hbulk, hrow] at hnotified
    dsimp only at hnotified
    rw [← hnotified, hdue, Bool.true_and, decide_eq_true_eq, List.length_pos_iff]
    exact hne

end Agree

/-- A table with one rule, and a live job that holds the key `u`. -/
def heldDb : Db where
  jobs := [newJob { kind := "mail", payload := .null, uniqueKey := some "u" } 1 0]
  rules := [{ pattern := "g*", maxConcurrency := some 2, rateCount := none, ratePeriodMs := none, priority := 0 }]
  nextJob := 2

/-- Another job with the key `u`, of the group `g1`. -/
def heldRequest : DynEnqueue := { kind := "mail", payload := .null, uniqueKey := some "u", groupKey := some "g1" }

/-- A free job of the same group. -/
def freeRequest : DynEnqueue := { kind := "mail", payload := .null, groupKey := some "g1" }

end Eddyq.Pg
