import Eddyq.Redis.Cells
import Eddyq.Redis.Line

/-!
# Keys that agree on a job

A job's HASH, the sorted sets and the id sets say the same about it. `JobInfo.homeKeys` are the sorted sets its
state prescribes and `JobInfo.indexKeys` the id sets. A cell is *at home* (`JobCell.Home`) when its job is in
exactly these; while a function moves a job, the cell is *loose* (`JobCell.Loose`): in no sorted set at all. Every
function takes a job out of its home, rewrites the HASH and puts it in the home of the new state, or deletes it
(`Home.leaveRunning`, `Known.hset`, `Loose.zaddBoth`, `Loose.deleted`).

The library skips the mirrors and the id sets of an empty queue or kind name when it takes a job down, so these keys
(`ZKey.blank`, `SKey.blank`) say nothing unless all names are given. The parameter `named` is this assumption: with
`named := True` all keys agree, with `named := False` all but the blank ones.
-/

namespace Eddyq.Redis

open Eddyq.Lib

/-! ## Homes -/

/-- The HASH says so. -/
structure JobHash.Has (h : JobHash) (i : JobInfo) : Prop where
  state : h.state = some i.state
  queue : h.queue = some i.queue
  group : h.groupKey = some i.group
  kind : h.kind = some i.kind
  unique : h.uniqueKey = some i.unique
  tags : h.tags = some i.tags

/-- The sorted sets a state prescribes. -/
def homeKeys (st : JobState) (queue group : String) : List ZKey :=
  match st with
  | .pending => [.wait queue]
  | .scheduled => [.delayed, .nqscheduled queue]
  | .running => if group = "" then [.active, .nqrun queue] else [.active, .nqrun queue, .grouprun group]
  | .completed => [.completed, .nqcompleted queue]
  | .failed => [.failed, .nqfailed queue]
  | .cancelled => [.cancelled, .nqcancelled queue]

def JobInfo.homeKeys (i : JobInfo) : List ZKey := Redis.homeKeys i.state i.queue i.group

/-- The id sets of a job. -/
def JobInfo.indexKeys (i : JobInfo) : List SKey := .queueset i.queue :: .kindset i.kind :: i.tags.map .tagset

/-- The mirror sets of the queue with the empty name. -/
def ZKey.blank : ZKey → Prop
  | .nqrun q | .nqcompleted q | .nqfailed q | .nqscheduled q | .nqcancelled q => q = ""
  | _ => False

/-- The id sets of the empty queue and kind names. -/
def SKey.blank : SKey → Prop
  | .queueset q | .kindset q => q = ""
  | .tagset _ => False

/-- Where no key is left out, no key is blank. -/
def ZKey.Tracked (named : Prop) (k : ZKey) : Prop := k.blank → named

def SKey.Tracked (named : Prop) (k : SKey) : Prop := k.blank → named

section Defs

variable (named : Prop)

/-- The HASH and the id sets agree. -/
structure JobCell.Known (c : JobCell) (i : JobInfo) : Prop where
  hash : ∃ h, c.hash = some h ∧ h.Has i
  names : named → i.queue ≠ "" ∧ i.kind ≠ ""
  member : ∀ k, SKey.Tracked named k → (c.member k ↔ k ∈ i.indexKeys)

/-- ... and the job is in no sorted set. -/
structure JobCell.Loose (c : JobCell) (i : JobInfo) : Prop extends c.Known named i where
  score : ∀ k, ZKey.Tracked named k → c.score k = none

/-- ... and the job is in exactly the sets of its state, in the two sets of a final state with one score. -/
structure JobCell.Home (c : JobCell) (i : JobInfo) : Prop extends c.Known named i where
  score : ∀ k, ZKey.Tracked named k → ((c.score k).isSome ↔ k ∈ i.homeKeys)
  mirror : i.state.terminal → ∀ k ∈ i.homeKeys, ∀ k' ∈ i.homeKeys, ZKey.Tracked named k → ZKey.Tracked named k' →
    c.score k = c.score k'

/-- No key mentions the job. -/
structure JobCell.Gone (c : JobCell) : Prop where
  hash : c.hash = none
  member : ∀ k, SKey.Tracked named k → ¬ c.member k
  score : ∀ k, ZKey.Tracked named k → c.score k = none
  errors : c.errors = []

end Defs

/-! ## Moving one cell -/

section Cells

variable {named : Prop} {c c' : JobCell} {i : JobInfo}

theorem JobCell.Known.fields (h : c.Known named i) : c.fields.Has i := by
  obtain ⟨x, hx, hi⟩ := h.hash
  rw [JobCell.fields, hx]
  exact hi

/-- Taking the job out of every set of its home leaves it loose. -/
theorem JobCell.Home.leave (h : c.Home named i) (hk : c'.Known named i)
    (hs : ∀ k, k.Tracked named → c'.score k = if k ∈ i.homeKeys then none else c.score k) : c'.Loose named i := by
  refine { hk with score := fun k ht => ?_ }
  rw [hs k ht]
  split
  · rfl
  · next hk => exact Option.not_isSome_iff_eq_none.mp (fun hh => hk ((h.score k ht).mp hh))

theorem JobCell.Known.zadd (h : c.Known named i) (k : ZKey) (sc : ℤ) : (c.zadd k sc).Known named i :=
  ⟨h.hash, h.names, h.member⟩

theorem JobCell.Known.zrem (h : c.Known named i) (k : ZKey) : (c.zrem k).Known named i :=
  ⟨h.hash, h.names, h.member⟩

@[simp]
theorem JobCell.zrem_score (c : JobCell) (k k' : ZKey) :
    (c.zrem k).score k' = if k' = k then none else c.score k' := Function.update_apply ..

@[simp]
theorem JobCell.zadd_score (c : JobCell) (k k' : ZKey) (sc : ℤ) :
    (c.zadd k sc).score k' = if k' = k then some sc else c.score k' := Function.update_apply ..

/-- The mirror of a queue: what `given` leaves out is blank. -/
theorem ZKey.tracked_mirror {m : String → ZKey} (hb : (m "").blank) {q : String} (hn : named → q ≠ "") {k : ZKey}
    (ht : k.Tracked named) : k = m q ↔ (given (some q)).map m = some k := by
  by_cases hq : q = ""
  · subst hq
    simp only [given_empty, Option.map_none, reduceCtorEq, iff_false]
    rintro rfl
    exact hn (ht hb) rfl
  · simp [given_some hq, eq_comm]

/-- `zremBoth` takes a job out of a home of two sets. -/
theorem JobCell.zremBoth_score (c : JobCell) (z k : ZKey) (o : Option ZKey) :
    (c.zremBoth z o).score k = if k = z ∨ o = some k then none else c.score k := by
  unfold JobCell.zremBoth
  cases o with
  | none => simp
  | some nq => by_cases h : k = nq <;> simp [h, eq_comm]

theorem JobCell.zaddBoth_score (c : JobCell) (z k : ZKey) (o : Option ZKey) (sc : ℤ) :
    (c.zaddBoth z o sc).score k = if k = z ∨ o = some k then some sc else c.score k := by
  unfold JobCell.zaddBoth
  cases o with
  | none => simp
  | some nq => by_cases h : k = nq <;> simp [h, eq_comm]

theorem JobCell.leaveRunning_score (c : JobCell) (g q : Option String) (k : ZKey) :
    (c.leaveRunning g q).score k =
      if k = .active ∨ (given g).map ZKey.grouprun = some k ∨ (given q).map ZKey.nqrun = some k then none
      else c.score k := by
  unfold JobCell.leaveRunning
  cases given g <;> cases given q <;> simp only [JobCell.zrem_score, Option.map_none, Option.map_some,
    Option.some.injEq, reduceCtorEq, or_false, false_or] <;> grind

theorem JobCell.Known.of_eq (h : c.Known named i) (hh : c'.hash = c.hash) (hm : c'.member = c.member) :
    c'.Known named i := ⟨hh ▸ h.hash, h.names, hm ▸ h.member⟩

theorem JobCell.Known.leaveRunning (h : c.Known named i) (g q : Option String) :
    (c.leaveRunning g q).Known named i := by
  refine h.of_eq ?_ ?_ <;> unfold JobCell.leaveRunning <;> cases given g <;> cases given q <;> rfl

theorem JobCell.Known.zremBoth (h : c.Known named i) (z : ZKey) (o : Option ZKey) :
    (c.zremBoth z o).Known named i := by
  refine h.of_eq ?_ ?_ <;> cases o <;> rfl

theorem JobCell.Known.zaddBoth (h : c.Known named i) (z : ZKey) (o : Option ZKey) (sc : ℤ) :
    (c.zaddBoth z o sc).Known named i := by
  refine h.of_eq ?_ ?_ <;> cases o <;> rfl

/-- A job leaves the running sets. -/
theorem JobCell.Home.leaveRunning (h : c.Home named i) (hr : i.state = .running) :
    (c.leaveRunning (some i.group) (some i.queue)).Loose named i := by
  refine h.leave (h.toKnown.leaveRunning _ _) (fun k ht => ?_)
  have hg : k = .grouprun i.group ∧ i.group ≠ "" ↔ (given (some i.group)).map ZKey.grouprun = some k := by
    by_cases hg : i.group = ""
    · simp [hg]
    · simp [given_some hg, hg, eq_comm]
  rw [JobCell.leaveRunning_score]
  refine if_congr ?_ rfl rfl
  have hb : (ZKey.nqrun "").blank := rfl
  have hq := ZKey.tracked_mirror hb (fun hn => (h.names hn).1) ht
  rw [← hq, ← hg]
  simp only [JobInfo.homeKeys, Redis.homeKeys, hr]
  by_cases hg : i.group = ""
  · simp [hg]
  · simp [hg]
    tauto

/-- A job leaves its wait set. -/
theorem JobCell.Home.leaveWait (h : c.Home named i) (hr : i.state = .pending) :
    (c.zrem (.wait i.queue)).Loose named i := by
  refine h.leave (h.toKnown.zrem _) (fun k _ => ?_)
  simp [JobInfo.homeKeys, Redis.homeKeys, hr]

/-- A job leaves a home of two sets. -/
theorem JobCell.Home.zremBoth (h : c.Home named i) {z : ZKey} {m : String → ZKey} (hb : (m "").blank)
    (hk : i.homeKeys = [z, m i.queue]) : (c.zremBoth z ((given (some i.queue)).map m)).Loose named i := by
  refine h.leave (h.toKnown.zremBoth _ _) (fun k ht => ?_)
  rw [JobCell.zremBoth_score]
  refine if_congr ?_ rfl rfl
  rw [← ZKey.tracked_mirror hb (fun hn => (h.names hn).1) ht, hk]
  simp

/-- `HSET` of the state and of fields that are not part of the agreement. -/
theorem JobCell.Known.hset (h : c.Known named i) {f : JobHash → JobHash} {st : JobState}
    (hs : ∀ x, (f x).state = some st)
    (hf : ∀ x, (f x).queue = x.queue ∧ (f x).groupKey = x.groupKey ∧ (f x).kind = x.kind ∧
      (f x).uniqueKey = x.uniqueKey ∧ (f x).tags = x.tags) :
    (c.hset f).Known named { i with state := st } := by
  have hi := h.fields
  obtain ⟨h1, h2, h3, h4, h5⟩ := hf c.fields
  exact ⟨⟨_, rfl, hs _, h1.trans hi.queue, h2.trans hi.group, h3.trans hi.kind, h4.trans hi.unique,
    h5.trans hi.tags⟩, h.names, h.member⟩

theorem JobCell.Loose.hset (h : c.Loose named i) {f : JobHash → JobHash} {st : JobState}
    (hs : ∀ x, (f x).state = some st)
    (hf : ∀ x, (f x).queue = x.queue ∧ (f x).groupKey = x.groupKey ∧ (f x).kind = x.kind ∧
      (f x).uniqueKey = x.uniqueKey ∧ (f x).tags = x.tags) : (c.hset f).Loose named { i with state := st } :=
  { h.toKnown.hset hs hf with score := h.score }

/-- A loose job joins the sets of its state. -/
theorem JobCell.Loose.join (h : c.Loose named i) (hk : c'.Known named i)
    (hs : ∀ k, k.Tracked named → ((c'.score k).isSome ↔ k ∈ i.homeKeys ∨ (c.score k).isSome))
    (hm : i.state.terminal → ∀ k ∈ i.homeKeys, ∀ k' ∈ i.homeKeys, ZKey.Tracked named k → ZKey.Tracked named k' →
      c'.score k = c'.score k') : c'.Home named i := by
  refine { hk with score := fun k ht => ?_, mirror := hm }
  rw [hs k ht, h.score k ht]
  simp

/-- A loose job joins a wait set. -/
theorem JobCell.Loose.joinWait (h : c.Loose named i) (hr : i.state = .pending) (sc : ℤ) :
    (c.zadd (.wait i.queue) sc).Home named i := by
  refine h.join (h.toKnown.zadd _ _) (fun k _ => ?_) (fun ht => ?_)
  · by_cases hk : k = .wait i.queue <;> simp [hk, JobInfo.homeKeys, Redis.homeKeys, hr]
  · rw [hr] at ht; cases ht

/-- A loose job joins a home of two sets. -/
theorem JobCell.Loose.zaddBoth (h : c.Loose named i) {z : ZKey} {m : String → ZKey} (hb : (m "").blank)
    (hk : i.homeKeys = [z, m i.queue]) (sc : ℤ) :
    (c.zaddBoth z ((given (some i.queue)).map m) sc).Home named i := by
  have hsc : ∀ k, k.Tracked named → (c.zaddBoth z ((given (some i.queue)).map m) sc).score k =
      if k ∈ i.homeKeys then some sc else c.score k := by
    intro k ht
    rw [JobCell.zaddBoth_score]
    refine if_congr ?_ rfl rfl
    rw [← ZKey.tracked_mirror hb (fun hn => (h.names hn).1) ht, hk]
    simp
  refine h.join (h.toKnown.zaddBoth _ _ _) (fun k ht => ?_) (fun _ k h1 k' h2 ht ht' => ?_)
  · rw [hsc k ht]
    split
    · next hm => simp [hm]
    · next hm => simp [hm]
  · rw [hsc k ht, hsc k' ht', if_pos h1, if_pos h2]

/-- A claimed job, from its wait set to the running sets: `startJob` on one cell. -/
theorem JobCell.Home.start (h : c.Home named i) (hr : i.state = .pending) {f : JobHash → JobHash}
    (hs : ∀ x, (f x).state = some .running)
    (hf : ∀ x, (f x).queue = x.queue ∧ (f x).groupKey = x.groupKey ∧ (f x).kind = x.kind ∧
      (f x).uniqueKey = x.uniqueKey ∧ (f x).tags = x.tags) (now : ℤ)
    (hc : c' = (match given (some i.group) with
      | some g => (((c.zrem (.wait i.queue)).zadd .active now).hset f).zadd (.grouprun g) now
      | none => ((c.zrem (.wait i.queue)).zadd .active now).hset f).zadd (.nqrun i.queue) now) :
    c'.Home named { i with state := .running } := by
  have hl := (h.leaveWait hr).hset hs hf
  have hkn : c'.Known named { i with state := .running } := by
    refine hl.toKnown.of_eq ?_ ?_ <;> subst hc <;> cases given (some i.group) <;> rfl
  refine hl.join hkn (fun k _ => ?_) (fun ht => nomatch ht)
  subst hc
  by_cases hg : i.group = ""
  · simp only [hg, given_empty, JobInfo.homeKeys, Redis.homeKeys, JobCell.zadd_score, JobCell.hset,
      JobCell.zrem_score, if_true, List.mem_cons, List.not_mem_nil, or_false]
    by_cases h1 : k = .nqrun i.queue
    · simp [h1]
    · by_cases h2 : k = .active <;> simp [h1, h2]
  · simp only [given_some hg, JobInfo.homeKeys, Redis.homeKeys, JobCell.zadd_score, JobCell.hset,
      JobCell.zrem_score, hg, if_false, List.mem_cons, List.not_mem_nil, or_false]
    by_cases h1 : k = .nqrun i.queue
    · simp [h1]
    · by_cases h2 : k = .active
      · simp [h2]
      · by_cases h3 : k = .grouprun i.group <;> simp [h1, h2, h3]

/-- A heartbeat moves a running job within `active`. -/
theorem JobCell.Home.beat (h : c.Home named i) (hr : i.state = .running) {f : JobHash → JobHash}
    (hs : ∀ x, (f x).state = x.state)
    (hf : ∀ x, (f x).queue = x.queue ∧ (f x).groupKey = x.groupKey ∧ (f x).kind = x.kind ∧
      (f x).uniqueKey = x.uniqueKey ∧ (f x).tags = x.tags) (now : ℤ) :
    ((c.hset f).zadd .active now).Home named i := by
  have hi := h.fields
  obtain ⟨h1, h2, h3, h4, h5⟩ := hf c.fields
  refine ⟨⟨⟨_, rfl, (hs _).trans hi.state, h1.trans hi.queue, h2.trans hi.group, h3.trans hi.kind,
    h4.trans hi.unique, h5.trans hi.tags⟩, h.names, h.member⟩, fun k ht => ?_, fun ht => ?_⟩
  · rw [JobCell.zadd_score]
    split
    · next hk =>
      subst hk
      by_cases hg : i.group = "" <;> simp [JobInfo.homeKeys, Redis.homeKeys, hr, hg]
    · exact h.score k ht
  · rw [hr] at ht; cases ht

theorem JobCell.Home.pushError (h : c.Home named i) (e : String) : (c.pushError e).Home named i :=
  ⟨⟨h.hash, h.names, h.member⟩, h.score, h.mirror⟩

/-- The HASH names all the id sets that are not blank. -/
theorem JobHash.Has.mem_indexKeys {h : JobHash} (hi : h.Has i) (hn : named → i.queue ≠ "" ∧ i.kind ≠ "") {k : SKey}
    (ht : k.Tracked named) : k ∈ h.indexKeys ↔ k ∈ i.indexKeys := by
  have hq : (∃ q, given (some i.queue) = some q ∧ SKey.queueset q = k) ↔ k = .queueset i.queue := by
    by_cases hq : i.queue = ""
    · simp only [hq, given_empty, reduceCtorEq, false_and, exists_false, false_iff]
      rintro rfl
      exact (hn (ht rfl)).1 hq
    · simp [given_some hq, eq_comm]
  have hk : (∃ q, given (some i.kind) = some q ∧ SKey.kindset q = k) ↔ k = .kindset i.kind := by
    by_cases hk : i.kind = ""
    · simp only [hk, given_empty, reduceCtorEq, false_and, exists_false, false_iff]
      rintro rfl
      exact (hn (ht rfl)).2 hk
    · simp [given_some hk, eq_comm]
  simp only [JobHash.indexKeys, JobInfo.indexKeys, hi.queue, hi.kind, hi.tags, Option.getD_some, List.mem_append,
    List.mem_map, Option.mem_toList, List.mem_cons, hq, hk, or_assoc]

/-- Deleting a loose job leaves nothing. -/
theorem JobCell.Loose.deleted (h : c.Loose named i) : c.deleted.Gone named where
  hash := rfl
  member k ht := by
    simp only [JobCell.deleted, h.member k ht, h.fields.mem_indexKeys h.names ht, and_not_self, not_false_eq_true]
  score := h.score
  errors := rfl

/-- Taking a deleted job out of both its sets leaves nothing. -/
theorem JobCell.Home.deleted_zremBoth (h : c.Home named i) {z : ZKey} {m : String → ZKey} (hb : (m "").blank)
    (hk : i.homeKeys = [z, m i.queue]) : (c.deleted.zremBoth z ((given (some i.queue)).map m)).Gone named := by
  have hd := (h.zremBoth hb hk).deleted
  have he : (c.zremBoth z ((given (some i.queue)).map m)).deleted =
      c.deleted.zremBoth z ((given (some i.queue)).map m) := by
    cases given (some i.queue) <;> rfl
  rwa [he] at hd

/-- What an enqueue makes of its arguments. -/
def EnqueueArgs.info (a : EnqueueArgs) (now : ℤ) : JobInfo where
  state := if a.effectiveScheduled now ≤ now then .pending else .scheduled
  queue := a.queue
  group := a.groupKey
  kind := a.kind
  unique := a.uniqueKey
  tags := a.tags

theorem EnqueueArgs.info_live (a : EnqueueArgs) (now : ℤ) : ¬ (a.info now).state.terminal := by
  unfold EnqueueArgs.info
  split <;> simp [JobState.terminal]

/-- A new job is at home. -/
theorem JobCell.Gone.inserted (h : c.Gone named) (a : EnqueueArgs) (id : JobId) (now : ℤ)
    (hn : named → a.queue ≠ "" ∧ a.kind ≠ "") : (c.inserted a id now).Home named (a.info now) := by
  have hloose : JobCell.Loose named
      { hash := some (a.toHash id now c.fields)
        score := c.score
        member := fun k => k = .queueset a.queue ∨ k = .kindset a.kind ∨ k ∈ a.tags.map SKey.tagset ∨ c.member k
        errors := c.errors } (a.info now) := by
    refine ⟨⟨⟨_, rfl, rfl, rfl, rfl, rfl, rfl, rfl⟩, hn, fun k ht => ?_⟩, h.score⟩
    simp [JobInfo.indexKeys, EnqueueArgs.info, h.member k ht]
  unfold JobCell.inserted
  dsimp only
  split
  · next hd => exact hloose.joinWait (by simp [EnqueueArgs.info, hd]) _
  · next hd =>
    have hst : (a.info now).state = .scheduled := by simp [EnqueueArgs.info, hd]
    refine hloose.join ((hloose.toKnown.zadd _ _).zadd _ _) (fun k _ => ?_) (fun ht => ?_)
    · rw [JobInfo.homeKeys, hst]
      simp only [JobCell.zadd_score, Redis.homeKeys, EnqueueArgs.info, List.mem_cons, List.not_mem_nil, or_false]
      by_cases h1 : k = .nqscheduled a.queue
      · simp [h1]
      · by_cases h2 : k = .delayed <;> simp [h1, h2]
    · rw [hst] at ht; cases ht

end Cells

end Eddyq.Redis
