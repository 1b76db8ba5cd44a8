import Eddyq.Pg.Budgets

/-!
# Claims between the statements of others

What is true of a claim at each of its phases, as long as the rows it holds are left alone: its picks are pending job
rows that it holds (`ClaimTx.Sound`), and for a queue or group row with a constant cap, what it may still take of it fits
under the cap (`ClaimTx.QueueRoom`, `ClaimTx.GroupRoom`). Every statement keeps this (`ClaimStmt.sound`,
`ClaimStmt.queueRoom`, `ClaimStmt.groupRoom`), and so does any change to rows that the claim does not hold
(`Spares`).
-/

namespace Eddyq.Pg

open Eddyq.Lib

/-- The primary keys, and the sequence of the job ids. -/
structure Keyed (db : Db) : Prop where
  ids : (db.jobs.map (·.id)).Nodup
  fresh : ∀ j ∈ db.jobs, j.id < db.nextJob
  groups : (db.groups.map (·.key)).Nodup
  queues : (db.queues.map (·.name)).Nodup

/-- The rows outside `own` are still there as they were. -/
structure Spares (own : Row → Prop) (db db' : Db) : Prop where
  jobs : ∀ j ∈ db.jobs, ¬ own (.job j.id) → j ∈ db'.jobs
  groups : ∀ g ∈ db.groups, ¬ own (.group g.key) → g ∈ db'.groups
  queues : ∀ q ∈ db.queues, ¬ own (.queue q.name) → q ∈ db'.queues

theorem Spares.trans {own : Row → Prop} {db db₁ db' : Db} (h : Spares own db db₁) (h' : Spares own db₁ db') :
    Spares own db db' :=
  ⟨fun j hj ho => h'.jobs j (h.jobs j hj ho) ho, fun g hg ho => h'.groups g (h.groups g hg ho) ho,
    fun q hq ho => h'.queues q (h.queues q hq ho) ho⟩

theorem Spares.slots {own : Row → Prop} {db db' : Db} (h : Spares own db db') {count cap : ℤ} {r : Row}
    (hs : db.Slots count cap r) (ho : ¬ own r) : db'.Slots count cap r := by
  cases r with
  | job id => exact hs
  | group k =>
    obtain ⟨g, hg, rfl, hcount, hcap⟩ := hs
    exact ⟨g, h.groups g hg ho, rfl, hcount, hcap⟩
  | queue n =>
    obtain ⟨q, hq, rfl, hcount, hcap⟩ := hs
    exact ⟨q, h.queues q hq ho, rfl, hcount, hcap⟩

theorem Room.spared {own : Row → Prop} {db db' : Db} {held : List Row} {cap : ℤ} {r : Row} {k : ℤ}
    (h : Room db held cap r k) (hs : Spares own db db') (ho : ∀ r ∈ held, ¬ own r) : Room db' held cap r k := by
  rcases h with h | ⟨hr, count, hslots, hle⟩
  · exact Or.inl h
  · exact Or.inr ⟨hr, count, hs.slots hslots (ho r hr), hle⟩

/-! ## The picks -/

/-- A pick is a pending job row that the claim holds, on a queue it asked for. -/
structure Picked (db : Db) (held : List Row) (queues : List String) (y : Accepted) : Prop where
  held : .job y.id ∈ held
  queue : y.queue ∈ queues
  row : ∃ j ∈ db.jobs, j.id = y.id ∧ j.state = .pending ∧ j.queue = y.queue ∧ j.groupKey = y.group

/-- All picks of the claim. -/
def AllPicked (db : Db) (held : List Row) (queues : List String) (c : Claiming) : Prop :=
  ∀ y ∈ c.accepted, Picked db held queues y

/-- All picks are from the fast lane. -/
def Claiming.Ungrouped (c : Claiming) : Prop := ∀ y ∈ c.accepted, y.group = none

/-- What is true of the picks and rows of a claim. -/
def ClaimTx.Sound (db : Db) (x : ClaimTx) : Prop :=
  match x.phase with
  | .begun => True
  | .read rows => (rows.map (·.name)).Nodup
  | .fast c todo => AllPicked db x.held x.args.queues c ∧ c.Ungrouped ∧ todo ⊆ x.args.queues
  | .walked c _ => AllPicked db x.held x.args.queues c ∧ c.Ungrouped
  | .grouped c _ rows => AllPicked db x.held x.args.queues c ∧ c.Ungrouped ∧ (rows.map (·.key)).Nodup ∧
      ∀ g ∈ rows, g ∈ db.groups ∧ .group g.key ∈ x.held
  | .slow c qs _ _ => AllPicked db x.held x.args.queues c ∧ qs ⊆ x.args.queues
  | .writing c _ => AllPicked db x.held x.args.queues c

/-- The ids of the picks of a claim, in any phase. -/
def ClaimTx.ids (x : ClaimTx) : List JobId :=
  match x.phase with
  | .begun | .read _ => []
  | .fast c _ | .walked c _ | .grouped c _ _ | .slow c _ _ _ | .writing c _ => c.ids

theorem ClaimTx.Sound.picked {db : Db} {x : ClaimTx} (h : x.Sound db) {id : JobId} (hid : id ∈ x.ids) :
    .job id ∈ x.held ∧ ∃ j ∈ db.jobs, j.id = id ∧ j.state = .pending := by
  have hall : ∀ {c : Claiming}, AllPicked db x.held x.args.queues c → id ∈ c.ids →
      .job id ∈ x.held ∧ ∃ j ∈ db.jobs, j.id = id ∧ j.state = .pending := by
    intro c hc hid
    obtain ⟨y, hy, rfl⟩ := List.mem_map.mp hid
    obtain ⟨j, hj, hjid, hst, _⟩ := (hc y hy).row
    exact ⟨(hc y hy).held, j, hj, hjid, hst⟩
  unfold ClaimTx.Sound at h
  unfold ClaimTx.ids at hid
  cases hp : x.phase with
  | begun | read =>
    rw [hp] at hid
    exact absurd hid List.not_mem_nil
  | fast | walked | grouped | slow =>
    rw [hp] at h hid
    exact hall h.1 hid
  | writing =>
    rw [hp] at h hid
    exact hall h hid

section Sound

variable {db db' : Db} {x x' : ClaimTx} {held held' : List Row} {queues : List String} {free : Row → Prop}
  {own : Row → Prop}

theorem AllPicked.mono {c : Claiming} (h : AllPicked db held queues c) (hh : held ⊆ held') :
    AllPicked db held' queues c := fun y hy => ⟨hh (h y hy).held, (h y hy).queue, (h y hy).row⟩

/-- The fast lane picks pending jobs of its queue. -/
theorem AllPicked.ungrouped {c : Claiming} {f : JobId → Bool} {q : String} (h : AllPicked db x.held x.args.queues c)
    (hq : q ∈ x.args.queues) : AllPicked db (x.held ++ (ungroupedPick db f x c q).map (fun j => .job j.id)) x.args.queues
      (claimUngrouped db f x.args x.now c q) := by
  refine claimUngrouped_forall (h.mono (List.subset_append_left _ _)) (fun j hj => ?_)
  have hin : j ∈ ungroupedPick db f x c q := hj
  obtain ⟨hm, hp, _⟩ := mem_pick hj
  simp only [ungroupedOn, Bool.and_eq_true, decide_eq_true_eq, Option.isNone_iff_eq_none] at hp
  exact ⟨List.mem_append_right _ (List.mem_map_of_mem hin), hq, j, hm, rfl, JobRow.due_pending hp.1.1, hp.2, hp.1.2⟩

/-- The slow lane picks pending jobs of its group, on the open queues. -/
theorem AllPicked.grouped {c : Claiming} {f : JobId → Bool} {qs : List String} {g : String × GroupState}
    (h : AllPicked db x.held x.args.queues c) (hqs : qs ⊆ x.args.queues) :
    AllPicked db (x.held ++ (groupedPick db f x c qs g).map (fun j => .job j.id)) x.args.queues
      (claimGrouped db f x.args x.now qs c g) := by
  unfold claimGrouped
  split
  · exact h.mono (List.subset_append_left _ _)
  · refine acceptGrouped_forall x.args g.1 _ _ c (h.mono (List.subset_append_left _ _)) (fun j hj => ?_)
    have hin : j ∈ groupedPick db f x c qs g := hj
    obtain ⟨hm, hp, _⟩ := mem_pick hj
    simp only [groupedIn, Bool.and_eq_true, decide_eq_true_eq] at hp
    exact ⟨List.mem_append_right _ (List.mem_map_of_mem hin), hqs hp.2, j, hm, rfl, JobRow.due_pending hp.1.1, rfl, hp.1.2⟩

/-- The keys of some of the rows. -/
theorem Keyed.lockGroups (h : Keyed db) (f : String → Bool) (keys : List String) :
    ((lockGroups db f keys).map (·.key)).Nodup := h.groups.sublist (List.Sublist.map _ List.filter_sublist)

theorem Keyed.readQueues (h : Keyed db) (names : List String) : ((readQueues db names).map (·.name)).Nodup :=
  h.queues.sublist (List.Sublist.map _ List.filter_sublist)

theorem Keyed.lockQueues (h : Keyed db) (f : String → Bool) (names : List String) :
    ((lockQueues db f names).map (·.name)).Nodup :=
  (h.readQueues names).sublist (List.Sublist.map _ List.filter_sublist)

/-- **A statement keeps the picks sound.** -/
theorem ClaimStmt.sound (hk : Keyed db) (h : x.Sound db) (hs : ClaimStmt free db x x') : x'.Sound db := by
  unfold ClaimTx.Sound at h
  cases hs with
  | readQueues at' => exact hk.readQueues _
  | lockQueues at' f hf budget room =>
    subst budget
    exact ⟨fun _ hy => absurd hy List.not_mem_nil, fun _ hy => absurd hy List.not_mem_nil, List.Subset.refl _⟩
  | pickUngrouped at' f hf =>
    rw [at'] at h
    obtain ⟨hp, hu, htodo⟩ := h
    refine ⟨hp.ungrouped (htodo List.mem_cons_self), claimUngrouped_forall hu (fun _ _ => rfl), ?_⟩
    exact fun q hq => htodo (List.mem_cons_of_mem _ hq)
  | walk at' =>
    rw [at'] at h
    exact ⟨h.1, h.2.1⟩
  | lockGroups at' f hf =>
    rw [at'] at h
    refine ⟨h.1.mono (List.subset_append_left _ _), h.2, hk.lockGroups _ _, fun g hg => ?_⟩
    exact ⟨(List.mem_filter.mp hg).1, List.mem_append_right _ (List.mem_map_of_mem hg)⟩
  | readExisting at' order hslots =>
    rw [at'] at h
    exact ⟨h.1, fun q hq => (List.mem_filter.mp hq).1⟩
  | pickGrouped at' f hf =>
    rw [at'] at h
    exact ⟨h.1.grouped h.2, h.2⟩
  | write at' some =>
    rw [at'] at h
    exact h.1
  | lockCounter at' hr hfree =>
    rw [at'] at h
    unfold ClaimTx.Sound
    rw [at']
    exact h.mono (List.subset_append_left _ _)

theorem Picked.spared {y : Accepted} (h : Picked db held queues y) (hs : Spares own db db') (ho : ∀ r ∈ held, ¬ own r) :
    Picked db' held queues y := by
  obtain ⟨j, hj, hid, hst⟩ := h.row
  exact ⟨h.held, h.queue, j, hs.jobs j hj (hid ▸ ho _ h.held), hid, hst⟩

theorem ClaimTx.Sound.spared (h : x.Sound db) (hs : Spares own db db') (ho : ∀ r ∈ x.held, ¬ own r) : x.Sound db' := by
  have hall : ∀ {c : Claiming}, AllPicked db x.held x.args.queues c → AllPicked db' x.held x.args.queues c :=
    fun hc y hy => (hc y hy).spared hs ho
  unfold ClaimTx.Sound at h ⊢
  split at h
  · trivial
  · exact h
  · exact ⟨hall h.1, h.2⟩
  · exact ⟨hall h.1, h.2⟩
  · exact ⟨hall h.1, h.2.1, h.2.2.1, fun g hg => ⟨hs.groups g (h.2.2.2 g hg).1 (ho _ (h.2.2.2 g hg).2), (h.2.2.2 g hg).2⟩⟩
  · exact ⟨hall h.1, h.2⟩
  · exact hall h

end Sound

/-! ## A queue with a cap -/

/-- What may be taken of the queue, in all, fits under its cap. -/
def QueueBudget (db : Db) (held : List Row) (queues : List String) (n : String) (cap : ℤ) (c : Claiming) : Prop :=
  n ∈ queues → ∃ total, c.Conserves n total ∧ Room db held cap (.queue n) total

/-- What is true of a claim and a queue row with a constant cap. -/
def ClaimTx.QueueRoom (db : Db) (n : String) (cap : ℤ) (x : ClaimTx) : Prop :=
  match x.phase with
  | .begun => True
  | .read rows => n ∈ x.args.queues → ∃ q ∈ rows, q.name = n ∧ q.maxConcurrency = cap
  | .fast c _ | .walked c _ | .grouped c _ _ | .slow c _ _ _ => QueueBudget db x.held x.args.queues n cap c
  | .writing c _ => Room db x.held cap (.queue n) (c.count (.queue n))

section Queues

variable {db db' : Db} {x x' : ClaimTx} {held held' : List Row} {queues : List String} {free : Row → Prop}
  {own : Row → Prop} {n : String} {cap : ℤ} {c : Claiming}

theorem QueueBudget.mono (h : QueueBudget db held queues n cap c) (hh : held ⊆ held') :
    QueueBudget db held' queues n cap c := by
  intro hn
  obtain ⟨total, hc, hr⟩ := h hn
  exact ⟨total, hc, hr.mono hh (le_refl _)⟩

/-- The budget after phase 0. -/
theorem queueBudget_begin (hk : Keyed db) {count : ℤ} (hs : db.Slots count cap (.queue n)) (hcap : cap < unlimited)
    {rows : List QueueRow} (hrows : (rows.map (·.name)).Nodup)
    (hread : n ∈ queues → ∃ q ∈ rows, q.name = n ∧ q.maxConcurrency = cap) (f : String → Bool) :
    QueueBudget db (held ++ (lockQueues db f (bindingNames rows)).map (fun q => .queue q.name)) queues n cap
      { budget := queueBudgets rows (lockQueues db f (bindingNames rows)) } := by
  intro hn
  obtain ⟨q, hq, rfl, hqcap⟩ := hread hn
  rcases queueBudgets_spec hrows (hk.lockQueues f (bindingNames rows)) hq with ⟨q', hq', hname, hb⟩ | hb
  · -- the row is held, and is the row that has the cap
    refine ⟨q'.slots, ⟨q'.slots, hb, slots_nonneg q', zero_add _⟩, ?_⟩
    obtain ⟨q₀, hq₀, hname₀, _, hcap₀⟩ := hs
    have hmem : q' ∈ db.queues := (List.mem_filter.mp (List.mem_filter.mp hq').1).1
    have heq : q' = q₀ := List.inj_on_of_nodup_map hk.queues hmem hq₀ (hname.trans hname₀.symm)
    have hheld : Row.queue q.name ∈ held ++ (lockQueues db f (bindingNames rows)).map (fun q => .queue q.name) := by
      rw [← hname]
      exact List.mem_append_right _ (List.mem_map_of_mem hq')
    by_cases hfull : q'.slots ≤ 0
    · exact Or.inl hfull
    · refine Or.inr ⟨hheld, q'.runningCount, ⟨q', hmem, hname, rfl, heq ▸ hcap₀⟩, ?_⟩
      have hc : q'.maxConcurrency = cap := heq ▸ hcap₀
      unfold QueueRow.slots at hfull ⊢
      split
      · omega
      · next hp =>
        rw [if_neg hp] at hfull
        omega
  · -- no budget: the row is held by a peer, or was full or paused
    have hzero : queueBudgets rows (lockQueues db f (bindingNames rows)) q.name = some 0 := by
      rw [hb]
      split
      · rfl
      · next hno => rw [slots_of_not_needsLock (hqcap ▸ hcap) hno]
    exact ⟨0, ⟨0, hzero, le_refl _, rfl⟩, Or.inl (le_refl _)⟩

/-- Without a subscription nothing is taken. -/
theorem count_of_unasked (h : AllPicked db held queues c) (hn : n ∉ queues) : c.count (.queue n) = 0 := by
  refine Int.ofNat_eq_zero.mpr (List.countP_eq_zero.mpr (fun y hy htakes => hn ?_))
  have he : y.queue = n := of_decide_eq_true htakes
  rw [← he]
  exact (h y hy).queue

/-- **A statement keeps a capped queue within its cap.** -/
theorem ClaimStmt.queueRoom (hk : Keyed db) {count : ℤ} (hslots : db.Slots count cap (.queue n)) (hcap : cap < unlimited)
    (hsound : x.Sound db) (h : x.QueueRoom db n cap) (hs : ClaimStmt free db x x') : x'.QueueRoom db n cap := by
  unfold ClaimTx.Sound at hsound
  unfold ClaimTx.QueueRoom at h
  cases hs with
  | readQueues at' =>
    intro hn
    obtain ⟨q, hq, rfl, _, hqcap⟩ := hslots
    exact ⟨q, List.mem_filter.mpr ⟨hq, decide_eq_true hn⟩, rfl, hqcap⟩
  | lockQueues at' f hf budget room =>
    rw [at'] at h hsound
    subst budget
    exact queueBudget_begin hk hslots hcap hsound h (fun n => f (.queue n))
  | pickUngrouped at' f hf =>
    rw [at'] at h
    intro hn
    obtain ⟨total, hc, hr⟩ := h hn
    exact ⟨total, claimUngrouped_conserves hc _, hr.mono (List.subset_append_left _ _) (le_refl _)⟩
  | walk at' =>
    rw [at'] at h
    exact h
  | lockGroups at' f hf =>
    rw [at'] at h
    exact h.mono (List.subset_append_left _ _)
  | readExisting at' order hslots =>
    rw [at'] at h
    exact h
  | @pickGrouped c qs slots todo g at' f hf =>
    rw [at'] at h
    intro hn
    obtain ⟨total, hc, hr⟩ := h hn
    refine ⟨total, ?_, hr.mono (List.subset_append_left _ _) (le_refl _)⟩
    unfold claimGrouped
    split
    · exact hc
    · exact acceptGrouped_conserves x.args g.1 _ _ hc
  | write at' some =>
    rw [at'] at h hsound
    by_cases hn : n ∈ x.args.queues
    · obtain ⟨total, ⟨b, _, h0, hsum⟩, hr⟩ := h hn
      exact hr.mono (List.Subset.refl _) (by omega)
    · exact Or.inl (count_of_unasked hsound.1 hn).le
  | lockCounter at' hr hfree =>
    rw [at'] at h
    unfold ClaimTx.QueueRoom
    rw [at']
    exact h.mono (List.subset_append_left _ _) (le_refl _)

theorem ClaimTx.QueueRoom.spared (h : x.QueueRoom db n cap) (hs : Spares own db db') (ho : ∀ r ∈ x.held, ¬ own r) :
    x.QueueRoom db' n cap := by
  have hb : ∀ {c : Claiming}, QueueBudget db x.held x.args.queues n cap c →
      QueueBudget db' x.held x.args.queues n cap c := by
    intro c hc hn
    obtain ⟨total, hcons, hr⟩ := hc hn
    exact ⟨total, hcons, hr.spared hs ho⟩
  unfold ClaimTx.QueueRoom at h ⊢
  split at h
  · trivial
  · exact h
  · exact hb h
  · exact hb h
  · exact hb h
  · exact hb h
  · exact h.spared hs ho

end Queues

/-! ## A group with a cap -/

/-- What has been taken of the group, and what may be taken of it when the slow lane comes to it. -/
structure GroupBudget (db : Db) (held : List Row) (k : String) (cap : ℤ) (c : Claiming)
    (todo : List (String × GroupState)) : Prop where
  taken : Room db held cap (.group k) (c.count (.group k))
  once : todo.countP (fun g => g.1 = k) ≤ 1
  next : ∀ st, (k, st) ∈ todo → c.count (.group k) = 0 ∧ Room db held cap (.group k) st.slots

/-- What is true of a claim and a group row with a constant cap. -/
def ClaimTx.GroupRoom (db : Db) (k : String) (cap : ℤ) (x : ClaimTx) : Prop :=
  match x.phase with
  | .slow c _ _ todo => GroupBudget db x.held k cap c todo
  | .writing c _ => Room db x.held cap (.group k) (c.count (.group k))
  | _ => True

section Groups

variable {db db' : Db} {x x' : ClaimTx} {held held' : List Row} {free : Row → Prop} {own : Row → Prop} {k : String}
  {cap : ℤ} {c : Claiming}

theorem toState_slots (g : GroupRow) (clock : ℤ) :
    (g.toState clock).slots ≤ if g.paused then 0 else max (g.maxConcurrency - g.runningCount) 0 := by
  unfold GroupRow.toState
  dsimp only
  split
  · split
    · exact min_le_left _ _
    · exact min_le_left _ _
  · exact min_le_left _ _

/-- A held row has room for its slots. -/
theorem toState_room (hk : Keyed db) {count : ℤ} (hs : db.Slots count cap (.group k)) {g : GroupRow} (hg : g ∈ db.groups)
    (hkey : g.key = k) (hheld : .group g.key ∈ held) (clock : ℤ) :
    Room db held cap (.group k) (g.toState clock).slots := by
  obtain ⟨g₀, hg₀, hkey₀, _, hcap₀⟩ := hs
  have heq : g = g₀ := List.inj_on_of_nodup_map hk.groups hg hg₀ (hkey.trans hkey₀.symm)
  have hc : g.maxConcurrency = cap := heq ▸ hcap₀
  have hle := toState_slots g clock
  by_cases hfull : (g.toState clock).slots ≤ 0
  · exact Or.inl hfull
  · refine Or.inr ⟨hkey ▸ hheld, g.runningCount, ⟨g, hg, hkey, rfl, hc⟩, ?_⟩
    split at hle
    · omega
    · omega

theorem count_of_ungrouped (h : c.Ungrouped) : c.count (.group k) = 0 := by
  refine Int.ofNat_eq_zero.mpr (List.countP_eq_zero.mpr (fun y hy htakes => ?_))
  have he : y.group = some k := of_decide_eq_true htakes
  rw [h y hy] at he
  cases he

/-- The slots of a group that has a row come from the row that is held. -/
theorem groupBudget_begin (hk : Keyed db) {count : ℤ} (hs : db.Slots count cap (.group k)) (hu : c.Ungrouped)
    {rows : List GroupRow} (hkeys : (rows.map (·.key)).Nodup)
    (hrows : ∀ g ∈ rows, g ∈ db.groups ∧ .group g.key ∈ held) (keys : List String) (clock : ℤ) (order : MapOrder) :
    GroupBudget db held k cap c (order.list (groupSlots rows keys (existingKeys db keys) clock)) := by
  have hzero : c.count (.group k) = 0 := count_of_ungrouped hu
  -- the row exists, so the key is not one of those without a row
  have hnot : ∀ st, (k, st) ∉ (keys.filter (· ∉ existingKeys db keys)).map (fun k => (k, { slots := unlimited : GroupState })) := by
    intro st hst
    obtain ⟨k', hk', he⟩ := List.mem_map.mp hst
    cases he
    obtain ⟨hkeys, hno⟩ := List.mem_filter.mp hk'
    obtain ⟨g, hg, hgk, _⟩ := hs
    refine of_decide_eq_true hno (List.mem_map.mpr ⟨g, List.mem_filter.mpr ⟨hg, decide_eq_true ?_⟩, hgk⟩)
    rwa [hgk]
  refine ⟨Or.inl hzero.le, ?_, fun st hst => ⟨hzero, ?_⟩⟩
  · have hnone : ((keys.filter (· ∉ existingKeys db keys)).map
        (fun k => (k, { slots := unlimited : GroupState }))).countP (fun g => g.1 = k) = 0 := by
      rw [List.countP_eq_zero]
      rintro ⟨k', st⟩ hmem he
      have he : k' = k := of_decide_eq_true he
      subst he
      exact hnot st hmem
    have hrow : (rows.map (fun g => (g.key, g.toState clock))).countP (fun g => g.1 = k) =
        (rows.map (·.key)).count k := by
      rw [List.count_eq_countP, List.countP_map, List.countP_map]
      refine List.countP_congr (fun g _ => ?_)
      simp
    rw [(order.perm _).countP_eq, groupSlots, List.countP_append, hnone, hrow, add_zero]
    exact List.nodup_iff_count_le_one.mp hkeys k
  · have hmem := (order.perm _).mem_iff.mp hst
    rcases List.mem_append.mp hmem with hmem | hmem
    · obtain ⟨g, hg, he⟩ := List.mem_map.mp hmem
      cases he
      exact toState_room hk hs (hrows g hg).1 rfl (hrows g hg).2 clock
    · exact absurd hmem (hnot st)

/-- The slow lane takes from one group. -/
theorem GroupBudget.pick {f : JobId → Bool} {a : ClaimArgs} {now : ℤ} {qs : List String} {g : String × GroupState}
    {todo : List (String × GroupState)} (h : GroupBudget db held k cap c (g :: todo)) (hh : held ⊆ held') :
    GroupBudget db held' k cap (claimGrouped db f a now qs c g) todo := by
  have honce := h.once
  rw [List.countP_cons] at honce
  have hrest : ∀ st, (k, st) ∈ todo → (k, st) ∈ g :: todo := fun st hst => List.mem_cons_of_mem _ hst
  unfold claimGrouped
  split
  · refine ⟨h.taken.mono hh (le_refl _), by omega, fun st hst => ?_⟩
    obtain ⟨h0, hr⟩ := h.next st (hrest st hst)
    exact ⟨h0, hr.mono hh (le_refl _)⟩
  · have hcount := acceptGrouped_count a g.1 k (Pg.pick db f (groupedIn a now qs g.1) (groupedLimit a c g.2)) g.2.slots c
    by_cases hg : g.1 = k
    · -- it is this group's turn, and there is no second
      obtain ⟨h0, hr⟩ := h.next g.2 (hg ▸ List.mem_cons_self)
      rw [if_pos hg, h0] at hcount
      have hlast : ∀ st, (k, st) ∉ todo := by
        intro st hst
        have hpos : 0 < todo.countP (fun g => g.1 = k) := List.countP_pos_iff.mpr ⟨(k, st), hst, by simp⟩
        simp only [hg, decide_true, if_true] at honce
        omega
      refine ⟨?_, by omega, fun st hst => absurd hst (hlast st)⟩
      by_cases hneg : g.2.slots ≤ 0
      · exact Or.inl (by omega)
      · exact hr.mono hh (by omega)
    · rw [if_neg hg, add_zero] at hcount
      refine ⟨h.taken.mono hh hcount, by omega, fun st hst => ?_⟩
      obtain ⟨h0, hr⟩ := h.next st (hrest st hst)
      refine ⟨?_, hr.mono hh (le_refl _)⟩
      have hpos : 0 ≤ (acceptGrouped a g.1 (Pg.pick db f (groupedIn a now qs g.1) (groupedLimit a c g.2)) g.2.slots c).count
          (.group k) := Int.natCast_nonneg _
      omega

/-- **A statement keeps a capped group within its cap.** -/
theorem ClaimStmt.groupRoom (hk : Keyed db) {count : ℤ} (hslots : db.Slots count cap (.group k)) (hsound : x.Sound db)
    (h : x.GroupRoom db k cap) (hs : ClaimStmt free db x x') : x'.GroupRoom db k cap := by
  unfold ClaimTx.Sound at hsound
  unfold ClaimTx.GroupRoom at h
  cases hs with
  | readQueues | lockQueues | pickUngrouped | walk | lockGroups => trivial
  | readExisting at' order hs =>
    rw [at'] at hsound
    subst hs
    exact groupBudget_begin hk hslots hsound.2.1 hsound.2.2.1 hsound.2.2.2 _ _ order
  | pickGrouped at' f hf =>
    rw [at'] at h
    exact h.pick (List.subset_append_left _ _)
  | write at' some =>
    rw [at'] at h
    exact h.taken
  | lockCounter at' hr hfree =>
    rw [at'] at h
    unfold ClaimTx.GroupRoom
    rw [at']
    exact h.mono (List.subset_append_left _ _) (le_refl _)

theorem ClaimTx.GroupRoom.spared (h : x.GroupRoom db k cap) (hs : Spares own db db') (ho : ∀ r ∈ x.held, ¬ own r) :
    x.GroupRoom db' k cap := by
  unfold ClaimTx.GroupRoom at h ⊢
  split at h
  · exact ⟨h.taken.spared hs ho, h.once, fun st hst => ⟨(h.next st hst).1, (h.next st hst).2.spared hs ho⟩⟩
  · exact h.spared hs ho
  · trivial

end Groups

end Eddyq.Pg
