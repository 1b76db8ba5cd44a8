import Eddyq.Redis.System

/-!
# What the Redis functions do to the cells

For every function that moves one job, the new cell of that job (`cell_leaveRunning`, `cell_deleteJob`,
`cell_recoverOne`, ...); no other cell changes. Only enqueue and fire advance the id counter (`*_idgen`).
-/

namespace Eddyq.Redis

open Eddyq.Lib

/-! ## Cell versions of the helpers -/

namespace JobCell

def leaveRunning (c : JobCell) (gkey queue : Option String) : JobCell :=
  let c := c.zrem .active
  let c := match given gkey with
    | some g => c.zrem (.grouprun g)
    | none => c
  match given queue with
  | some q => c.zrem (.nqrun q)
  | none => c

def zaddBoth (c : JobCell) (zset : ZKey) (nq : Option ZKey) (score : ℤ) : JobCell :=
  let c := c.zadd zset score
  match nq with
  | some k => c.zadd k score
  | none => c

def zremBoth (c : JobCell) (zset : ZKey) (nq : Option ZKey) : JobCell :=
  let c := c.zrem zset
  match nq with
  | some k => c.zrem k
  | none => c

/-- The cell after `delete_job`: the state sets are the caller's business. -/
def deleted (c : JobCell) : JobCell where
  hash := none
  score := c.score
  member k := c.member k ∧ k ∉ c.fields.indexKeys
  errors := []

/-- The cell of a job that an enqueue has written. -/
def inserted (c : JobCell) (a : EnqueueArgs) (id : JobId) (now : ℤ) : JobCell :=
  let c : JobCell :=
    { hash := some (a.toHash id now c.fields)
      score := c.score
      member := fun k => k = .queueset a.queue ∨ k = .kindset a.kind ∨ k ∈ a.tags.map SKey.tagset ∨ c.member k
      errors := c.errors }
  if a.effectiveScheduled now ≤ now then c.zadd (.wait a.queue) (waitScore a.priority (a.effectiveScheduled now))
  else (c.zadd .delayed (a.effectiveScheduled now)).zadd (.nqscheduled a.queue) (a.effectiveScheduled now)

end JobCell

/-! ## One helper at a time -/

section Helpers

variable (s : Store) (id : JobId)

@[simp]
theorem cell_leaveRunning (g q : Option String) :
    (leaveRunning s id g q).cell = Function.update s.cell id ((s.cell id).leaveRunning g q) := by
  unfold leaveRunning JobCell.leaveRunning
  cases given g <;> cases given q <;> simp

@[simp]
theorem cell_zaddBoth (z : ZKey) (nq : Option ZKey) (sc : ℤ) :
    (zaddBoth s z nq sc id).cell = Function.update s.cell id ((s.cell id).zaddBoth z nq sc) := by
  unfold zaddBoth JobCell.zaddBoth
  cases nq <;> simp

@[simp]
theorem cell_zremBoth (z : ZKey) (nq : Option ZKey) :
    (zremBoth s z nq id).cell = Function.update s.cell id ((s.cell id).zremBoth z nq) := by
  unfold zremBoth JobCell.zremBoth
  cases nq <;> simp

@[simp]
theorem leaveRunning_idgen (g q : Option String) : (leaveRunning s id g q).idgen = s.idgen := by
  unfold leaveRunning
  cases given g <;> cases given q <;> rfl

@[simp]
theorem zaddBoth_idgen (z : ZKey) (nq : Option ZKey) (sc : ℤ) : (zaddBoth s z nq sc id).idgen = s.idgen := by
  unfold zaddBoth
  cases nq <;> rfl

@[simp]
theorem zremBoth_idgen (z : ZKey) (nq : Option ZKey) : (zremBoth s z nq id).idgen = s.idgen := by
  unfold zremBoth
  cases nq <;> rfl

@[simp]
theorem zaddBoth_unique (z : ZKey) (nq : Option ZKey) (sc : ℤ) : (zaddBoth s z nq sc id).unique = s.unique := by
  unfold zaddBoth
  cases nq <;> rfl

@[simp]
theorem zremBoth_unique (z : ZKey) (nq : Option ZKey) : (zremBoth s z nq id).unique = s.unique := by
  unfold zremBoth
  cases nq <;> rfl

@[simp]
theorem leaveRunning_unique (g q : Option String) : (leaveRunning s id g q).unique = s.unique := by
  unfold leaveRunning
  cases given g <;> cases given q <;> rfl

@[simp]
theorem zremBoth_hash (z : ZKey) (nq : Option ZKey) : (zremBoth s z nq id).hash = s.hash := by
  unfold zremBoth
  cases nq <;> rfl

/-- Whether a reservation is dropped depends on the reservations alone. -/
theorem dropUniqueIfOwner_congr {s s' : Store} (h : s'.unique = s.unique) (u : Option String) (id : JobId) :
    (dropUniqueIfOwner s' u id).unique = (dropUniqueIfOwner s u id).unique := by
  unfold dropUniqueIfOwner
  cases given u with
  | none => exact h
  | some u =>
    dsimp only
    rw [h]
    split
    · exact congrArg (fun f => Function.update f u none) h
    · exact h

/-- Unique keys are not part of any cell. -/
theorem dropUniqueIfOwner_eq (u : Option String) :
    ∃ un, dropUniqueIfOwner s u id = { s with unique := un } := by
  unfold dropUniqueIfOwner
  split
  · exact ⟨_, rfl⟩
  split
  · exact ⟨_, rfl⟩
  · exact ⟨_, rfl⟩

@[simp]
theorem cell_dropUniqueIfOwner (u : Option String) : (dropUniqueIfOwner s u id).cell = s.cell := by
  obtain ⟨un, h⟩ := dropUniqueIfOwner_eq s id u
  rw [h]; rfl

@[simp]
theorem dropUniqueIfOwner_idgen (u : Option String) : (dropUniqueIfOwner s u id).idgen = s.idgen := by
  obtain ⟨un, h⟩ := dropUniqueIfOwner_eq s id u
  rw [h]

@[simp]
theorem cell_releaseUnique : (releaseUnique s id).cell = s.cell := cell_dropUniqueIfOwner _ _ _

@[simp]
theorem releaseUnique_idgen : (releaseUnique s id).idgen = s.idgen := dropUniqueIfOwner_idgen _ _ _

theorem cell_saddAll (ks : List SKey) :
    (saddAll s ks id).cell =
      Function.update s.cell id { s.cell id with member := fun k => k ∈ ks ∨ (s.cell id).member k } := by
  unfold saddAll
  induction ks generalizing s with
  | nil =>
    have h : ({ s.cell id with member := fun k => k ∈ [] ∨ (s.cell id).member k } : JobCell) = s.cell id := by
      simp
    rw [h, Function.update_eq_self]; rfl
  | cons k ks ih =>
    rw [List.foldl_cons, ih]
    simp only [Store.cell_sadd, Function.update_idem, Function.update_self]
    congr 1
    ext1
    · rfl
    · rfl
    · funext k'
      by_cases h : k' = k <;> simp [JobCell.sadd, h]
    · rfl

theorem cell_sremAll (ks : List SKey) :
    (sremAll s ks id).cell =
      Function.update s.cell id { s.cell id with member := fun k => (s.cell id).member k ∧ k ∉ ks } := by
  unfold sremAll
  induction ks generalizing s with
  | nil =>
    have h : ({ s.cell id with member := fun k => (s.cell id).member k ∧ k ∉ ([] : List SKey) } : JobCell) = s.cell id := by
      simp
    rw [h, Function.update_eq_self]; rfl
  | cons k ks ih =>
    rw [List.foldl_cons, ih]
    simp only [Store.cell_srem, Function.update_idem, Function.update_self]
    congr 1
    ext1
    · rfl
    · rfl
    · funext k'
      by_cases h : k' = k <;> simp [JobCell.srem, h]
    · rfl

/-- Adding ids to sets changes the sets only. -/
theorem saddAll_eq (ks : List SKey) : ∃ st, saddAll s ks id = { s with sets := st } := by
  unfold saddAll
  induction ks generalizing s with
  | nil => exact ⟨_, rfl⟩
  | cons k ks ih =>
    obtain ⟨st, h⟩ := ih (s.sadd k id)
    exact ⟨st, by rw [List.foldl_cons, h]; rfl⟩

/-- Removing ids from sets changes the sets only. -/
theorem sremAll_eq (ks : List SKey) : ∃ st, sremAll s ks id = { s with sets := st } := by
  unfold sremAll
  induction ks generalizing s with
  | nil => exact ⟨_, rfl⟩
  | cons k ks ih =>
    obtain ⟨st, h⟩ := ih (s.srem k id)
    exact ⟨st, by rw [List.foldl_cons, h]; rfl⟩

@[simp]
theorem saddAll_idgen (ks : List SKey) : (saddAll s ks id).idgen = s.idgen := by
  obtain ⟨st, h⟩ := saddAll_eq s id ks
  rw [h]

@[simp]
theorem sremAll_idgen (ks : List SKey) : (sremAll s ks id).idgen = s.idgen := by
  obtain ⟨st, h⟩ := sremAll_eq s id ks
  rw [h]

/-! ## Insertion and deletion -/

@[simp]
theorem cell_deleteJob : (deleteJob s id).cell = Function.update s.cell id (s.cell id).deleted := by
  unfold deleteJob
  simp only [Store.cell_delJob, Store.cell_delErrors, cell_dropUniqueIfOwner, cell_sremAll, Function.update_self,
    Function.update_idem]
  rfl

@[simp]
theorem deleteJob_idgen : (deleteJob s id).idgen = s.idgen := by simp [deleteJob]

/-- A deletion touches the reservations as `drop_unique_if_owner` does. -/
@[simp]
theorem deleteJob_unique : (deleteJob s id).unique = (dropUniqueIfOwner s (s.hash id).uniqueKey id).unique := by
  obtain ⟨st, h⟩ := sremAll_eq s id (s.hash id).indexKeys
  unfold deleteJob
  simp only [h, Store.delJob_unique, Store.delErrors_unique]
  refine dropUniqueIfOwner_congr ?_ _ _
  rfl

@[simp]
theorem cell_pruneJob (z nq : ZKey) :
    (pruneJob z nq s id).cell = Function.update s.cell id (((s.cell id).deleted.zrem z).zrem nq) := by
  simp [pruneJob]

@[simp]
theorem pruneJob_idgen (z nq : ZKey) : (pruneJob z nq s id).idgen = s.idgen := by simp [pruneJob]

@[simp]
theorem cell_queuesSeen (l : List String) : ({ s with queuesSeen := l } : Store).cell = s.cell := rfl

theorem cell_insertJob (a : EnqueueArgs) (now : ℤ) :
    (insertJob s a id now).cell = Function.update s.cell id ((s.cell id).inserted a id now) := by
  have hm : ∀ c : JobCell, ({ ((c.hset (a.toHash id now)).sadd (.queueset a.queue)).sadd (.kindset a.kind) with
      member := fun k => k ∈ a.tags.map SKey.tagset ∨
        (((c.hset (a.toHash id now)).sadd (.queueset a.queue)).sadd (.kindset a.kind)).member k } : JobCell) =
      { hash := some (a.toHash id now c.fields), score := c.score,
        member := fun k => k = .queueset a.queue ∨ k = .kindset a.kind ∨ k ∈ a.tags.map SKey.tagset ∨ c.member k,
        errors := c.errors } := by
    intro c
    ext1
    · rfl
    · rfl
    · funext k
      by_cases h1 : k = .kindset a.kind
      · simp [JobCell.sadd, h1]
      · by_cases h2 : k = .queueset a.queue
        · subst h2; simp [JobCell.sadd]
        · simp [JobCell.sadd, JobCell.hset, h1, h2]
    · rfl
  unfold insertJob JobCell.inserted
  dsimp only
  split
  · simp only [Store.cell_zadd, cell_saddAll, maybeMaterializeGroup_cell, cell_queuesSeen, Store.cell_sadd,
      Store.cell_hset, Function.update_self, Function.update_idem, hm]
  · simp only [Store.cell_zadd, cell_saddAll, maybeMaterializeGroup_cell, cell_queuesSeen, Store.cell_sadd,
      Store.cell_hset, Function.update_self, Function.update_idem, hm]

/-- The fields of a job that an enqueue has written. -/
theorem inserted_fields (c : JobCell) (a : EnqueueArgs) (id : JobId) (now : ℤ) :
    (c.inserted a id now).fields = a.toHash id now c.fields := by
  unfold JobCell.inserted
  dsimp only
  split <;> rfl

@[simp]
theorem insertJob_idgen (a : EnqueueArgs) (now : ℤ) : (insertJob s a id now).idgen = s.idgen := by
  unfold insertJob
  dsimp only
  split <;> simp

@[simp]
theorem insertJob_unique (a : EnqueueArgs) (now : ℤ) : (insertJob s a id now).unique = s.unique := by
  obtain ⟨st, h⟩ := saddAll_eq (maybeMaterializeGroup
    { ((s.hset id (a.toHash id now)).sadd (.queueset a.queue) id).sadd (.kindset a.kind) id with
      queuesSeen := s.queuesSeen.insert a.queue } a.groupKey now) id (a.tags.map .tagset)
  unfold insertJob
  dsimp only
  split
  · rw [Store.zadd_unique]
    exact (congrArg Store.unique h).trans (maybeMaterializeGroup_unique _ _ _)
  · rw [Store.zadd_unique, Store.zadd_unique]
    exact (congrArg Store.unique h).trans (maybeMaterializeGroup_unique _ _ _)

end Helpers

end Eddyq.Redis
