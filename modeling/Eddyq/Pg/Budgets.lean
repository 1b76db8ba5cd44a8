import Eddyq.Pg.Counters
import Eddyq.Pg.Transactions

/-!
# The budgets of a claim

What a claim may still take is what its budgets say. Taking jobs of a queue lowers its budget by as many
(`Claiming.Conserves`), and no more jobs of a group are taken than it has slots (`acceptGrouped_count`). A budget above
zero was read from a row that the claim holds, or there is no row (`queueBudgets_spec`, `groupSlots`); so the jobs taken
fit under the cap of every row (`Room`), whatever the others do meanwhile.
-/

namespace Eddyq.Pg

open Eddyq.Lib

/-! ## Rows with slots -/

/-- A job belongs to the row. -/
def Row.has (j : JobRow) : Row → Bool
  | .job id => j.id = id
  | .group k => j.groupKey = some k
  | .queue n => j.queue = n

/-- A pick belongs to the row. -/
def Row.takes (y : Accepted) : Row → Bool
  | .job id => y.id = id
  | .group k => y.group = some k
  | .queue n => y.queue = n

/-- The committed row has that counter and that cap. -/
def Db.Slots (db : Db) (count cap : ℤ) : Row → Prop
  | .job _ => False
  | .group k => ∃ g ∈ db.groups, g.key = k ∧ g.runningCount = count ∧ g.maxConcurrency = cap
  | .queue n => ∃ q ∈ db.queues, q.name = n ∧ q.runningCount = count ∧ q.maxConcurrency = cap

/-- How many jobs of the row a claim has picked. -/
def Claiming.count (c : Claiming) (r : Row) : ℤ := c.accepted.countP (fun y => r.takes y)

/-- There is room for `k` more jobs, and it cannot go away: nothing is asked, or the row is held. -/
def Room (db : Db) (held : List Row) (cap : ℤ) (r : Row) (k : ℤ) : Prop :=
  k ≤ 0 ∨ r ∈ held ∧ ∃ count, db.Slots count cap r ∧ k + count ≤ cap

theorem Room.mono {db : Db} {held held' : List Row} {cap : ℤ} {r : Row} {k k' : ℤ} (h : Room db held cap r k)
    (hh : held ⊆ held') (hk : k' ≤ k) : Room db held' cap r k' := by
  rcases h with h | ⟨hr, count, hs, hle⟩
  · exact Or.inl (hk.trans h)
  · exact Or.inr ⟨hh hr, count, hs, by omega⟩

/-! ## Phase 0 -/

theorem setBudgets_of_notMem {n : String} : ∀ {rows : List QueueRow} (b : String → Option ℤ), (∀ q ∈ rows, q.name ≠ n) →
    setBudgets b rows n = b n
  | [], _, _ => rfl
  | q :: rows, b, h => by
    have hq : n ≠ q.name := (h q List.mem_cons_self).symm
    have hrest : ∀ q' ∈ rows, q'.name ≠ n := fun q' hq' => h q' (List.mem_cons_of_mem _ hq')
    rw [setBudgets, List.foldl_cons, ← setBudgets, setBudgets_of_notMem _ hrest, Function.update_of_ne hq]

theorem setBudgets_of_mem {q : QueueRow} : ∀ {rows : List QueueRow} (b : String → Option ℤ), (rows.map (·.name)).Nodup →
    q ∈ rows → setBudgets b rows q.name = some q.slots
  | q' :: rows, b, hn, hq => by
    rw [List.map_cons, List.nodup_cons] at hn
    rw [setBudgets, List.foldl_cons, ← setBudgets]
    rcases List.mem_cons.mp hq with rfl | hq
    · have hrest : ∀ q' ∈ rows, q'.name ≠ q.name := fun q' hq' he => hn.1 (he ▸ List.mem_map_of_mem hq')
      rw [setBudgets_of_notMem _ hrest, Function.update_self]
    · exact setBudgets_of_mem _ hn.2 hq

theorem zeroBudgets_apply (n : String) : ∀ (names : List String) (b : String → Option ℤ),
    zeroBudgets b names n = if n ∈ names then some 0 else b n
  | [], b => by simp [zeroBudgets]
  | m :: names, b => by
    rw [zeroBudgets, List.foldl_cons, ← zeroBudgets, zeroBudgets_apply n names]
    by_cases hm : n = m
    · subst hm
      simp
    · simp [hm]

/-- A row needs the lock when its name is to be read again. -/
theorem mem_bindingNames {rows : List QueueRow} (hn : (rows.map (·.name)).Nodup) {q : QueueRow} (hq : q ∈ rows) :
    q.name ∈ bindingNames rows ↔ queueRowNeedsLock q := by
  rw [bindingNames, List.mem_map]
  constructor
  · rintro ⟨q', hq', he⟩
    obtain ⟨hm, hl⟩ := List.mem_filter.mp hq'
    rwa [← List.inj_on_of_nodup_map hn hm hq he]
  · intro hl
    exact ⟨q, List.mem_filter.mpr ⟨hq, hl⟩, rfl⟩

/-- **The budget of a queue with a row**: from the row that is held; none when it should have been held; else from the
unlocked read. -/
theorem queueBudgets_spec {rows locked : List QueueRow} (hr : (rows.map (·.name)).Nodup) (hl : (locked.map (·.name)).Nodup)
    {q : QueueRow} (hq : q ∈ rows) :
    (∃ q' ∈ locked, q'.name = q.name ∧ queueBudgets rows locked q.name = some q'.slots) ∨
      queueBudgets rows locked q.name = some (if queueRowNeedsLock q then 0 else q.slots) := by
  have hbind := mem_bindingNames hr hq
  unfold queueBudgets
  split
  · next hnil =>
    have hno : ¬ queueRowNeedsLock q := by
      rw [← hbind, hnil]
      exact List.not_mem_nil
    rw [if_neg hno]
    exact Or.inr (setBudgets_of_mem _ hr hq)
  · by_cases hin : ∃ q' ∈ locked, q'.name = q.name
    · obtain ⟨q', hq', he⟩ := hin
      refine Or.inl ⟨q', hq', he, ?_⟩
      rw [← he]
      exact setBudgets_of_mem _ hl hq'
    · right
      have hno : ∀ q' ∈ locked, q'.name ≠ q.name := fun q' hq' he => hin ⟨q', hq', he⟩
      rw [setBudgets_of_notMem _ hno, zeroBudgets_apply, setBudgets_of_mem _ hr hq]
      by_cases hneeds : queueRowNeedsLock q
      · rw [if_pos (hbind.mpr hneeds), if_pos hneeds]
      · rw [if_neg (fun h => hneeds (hbind.mp h)), if_neg hneeds]

/-- A capped row that needs no lock is full or paused. -/
theorem slots_of_not_needsLock {q : QueueRow} (hcap : q.maxConcurrency < unlimited) (h : ¬ queueRowNeedsLock q) :
    q.slots = 0 := by
  unfold QueueRow.slots
  split
  · rfl
  · next hp =>
    have hfull : ¬ q.runningCount < q.maxConcurrency := by
      intro hlt
      apply h
      simp [queueRowNeedsLock, hp, hcap, hlt]
    omega

theorem slots_nonneg (q : QueueRow) : 0 ≤ q.slots := by
  unfold QueueRow.slots
  split
  · exact le_refl _
  · exact le_max_right _ _

/-! ## Taking jobs -/

/-- What has been taken of a queue and what may be taken add up to `total`. -/
def Claiming.Conserves (n : String) (total : ℤ) (c : Claiming) : Prop :=
  ∃ b, c.budget n = some b ∧ 0 ≤ b ∧ c.count (.queue n) + b = total

section Taking

variable {db : Db} {free : JobId → Bool} {a : ClaimArgs} {now : ℤ} {n : String} {total : ℤ}

theorem spend_self {b : String → Option ℤ} {x : ℤ} (h : b n = some x) (k : ℤ) : spend b n k n = some (max (x - k) 0) := by
  rw [spend, Function.update_self, h]
  rfl

theorem spend_of_ne {b : String → Option ℤ} {q : String} (h : n ≠ q) (k : ℤ) : spend b q k n = b n := by
  rw [spend, Function.update_of_ne h]

/-- The fast lane takes from one queue. -/
theorem claimUngrouped_conserves {c : Claiming} (h : c.Conserves n total) (q : String) :
    (claimUngrouped db free a now c q).Conserves n total := by
  obtain ⟨b, hb, h0, hsum⟩ := h
  unfold claimUngrouped
  split
  · exact ⟨b, hb, h0, hsum⟩
  · have hlen : (pick db free (ungroupedOn a now q) (ungroupedLimit a c q)).length ≤ ungroupedLimit a c q :=
      length_pick free _ _
    generalize pick db free (ungroupedOn a now q) (ungroupedLimit a c q) = rows at hlen
    have hcount : (acceptUngrouped c q rows).count (.queue n) =
        c.count (.queue n) + if q = n then (rows.length : ℤ) else 0 := by
      simp only [Claiming.count, acceptUngrouped, List.countP_append, List.countP_map, Nat.cast_add]
      congr 1
      split
      · next he =>
        have hall : ∀ j ∈ rows, ((fun y => (Row.queue n).takes y) ∘
            fun j : JobRow => { id := j.id, group := none, queue := q : Accepted }) j = true := by
          intro j _
          simp [Row.takes, he]
        rw [List.countP_eq_length.mpr hall]
      · next he =>
        have hnone : ∀ j ∈ rows, ¬ ((fun y => (Row.queue n).takes y) ∘
            fun j : JobRow => { id := j.id, group := none, queue := q : Accepted }) j = true := by
          intro j _
          simp [Row.takes, he]
        rw [List.countP_eq_zero.mpr hnone]
        rfl
    by_cases hq : q = n
    · subst hq
      -- the limit of the pick is within the budget
      have hle : (rows.length : ℤ) ≤ b := by
        have hfor : c.budgetFor q = b := by rw [Claiming.budgetFor, hb]; rfl
        unfold ungroupedLimit at hlen
        rw [hfor] at hlen
        split at hlen
        · omega
        · omega
      refine ⟨max (b - rows.length) 0, spend_self hb _, le_max_right _ _, ?_⟩
      rw [hcount, if_pos rfl]
      omega
    · refine ⟨b, ?_, h0, ?_⟩
      · show spend c.budget q rows.length n = some b
        rw [spend_of_ne (fun he => hq he.symm), hb]
      · rw [hcount, if_neg hq]
        omega

/-- One pick more. -/
theorem count_append (c : Claiming) (b : String → Option ℤ) (y : Accepted) (r : Row) :
    ({ budget := b, accepted := c.accepted ++ [y] } : Claiming).count r = c.count r + if r.takes y then 1 else 0 := by
  simp only [Claiming.count, List.countP_append, List.countP_singleton]
  split <;> simp

/-- The slow lane takes from the queues of its jobs. -/
theorem acceptGrouped_conserves (a : ClaimArgs) (key : String) : ∀ (js : List JobRow) (slots : ℤ) {c : Claiming},
    c.Conserves n total → (acceptGrouped a key js slots c).Conserves n total
  | [], _, _, h => h
  | j :: js, slots, c, h => by
    unfold acceptGrouped
    split
    · exact h
    split
    · exact acceptGrouped_conserves a key js slots h
    · next hroom =>
      refine acceptGrouped_conserves a key js (slots - 1) ?_
      obtain ⟨b, hb, h0, hsum⟩ := h
      by_cases hq : j.queue = n
      · have hfor : c.budgetFor j.queue = b := by rw [Claiming.budgetFor, hq, hb]; rfl
        rw [hfor] at hroom
        refine ⟨max (b - 1) 0, ?_, le_max_right _ _, ?_⟩
        · rw [hq]
          exact spend_self hb 1
        · have htakes : (Row.queue n).takes { id := j.id, group := some key, queue := j.queue } = true := by
            simp [Row.takes, hq]
          rw [count_append, if_pos htakes]
          omega
      · refine ⟨b, ?_, h0, ?_⟩
        · show spend c.budget j.queue 1 n = some b
          rw [spend_of_ne (fun he => hq he.symm), hb]
        · have htakes : ¬ (Row.queue n).takes { id := j.id, group := some key, queue := j.queue } = true := by
            simp [Row.takes, hq]
          rw [count_append, if_neg htakes]
          omega

/-- **No more jobs of a group are taken than it has slots.** -/
theorem acceptGrouped_count (a : ClaimArgs) (key k : String) : ∀ (js : List JobRow) (slots : ℤ) (c : Claiming),
    (acceptGrouped a key js slots c).count (.group k) ≤ c.count (.group k) + if key = k then max slots 0 else 0
  | [], slots, c => by
    have h0 : 0 ≤ if key = k then max slots 0 else 0 := by
      split
      · exact le_max_right _ _
      · exact le_refl _
    show c.count (.group k) ≤ _
    omega
  | j :: js, slots, c => by
    have h0 : 0 ≤ if key = k then max slots 0 else 0 := by
      split
      · exact le_max_right _ _
      · exact le_refl _
    unfold acceptGrouped
    split
    · omega
    · next hroom =>
      split
      · exact acceptGrouped_count a key k js slots c
      · refine (acceptGrouped_count a key k js (slots - 1) _).trans ?_
        rw [count_append]
        by_cases hk : key = k
        · have htakes : (Row.group k).takes { id := j.id, group := some key, queue := j.queue } = true := by
            simp [Row.takes, hk]
          rw [if_pos htakes, if_pos hk, if_pos hk]
          omega
        · have htakes : ¬ (Row.group k).takes { id := j.id, group := some key, queue := j.queue } = true := by
            simp [Row.takes, hk]
          rw [if_neg htakes, if_neg hk, if_neg hk]
          omega

end Taking

end Eddyq.Pg
