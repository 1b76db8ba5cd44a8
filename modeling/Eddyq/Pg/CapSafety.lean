import Eddyq.Pg.Commits

/-!
# Caps under concurrency

Any number of claims, verdicts and recoveries run statement by statement, in any order, on the same tables. The
discipline of the locks (`engine_disciplined`) carries what is true of each transaction through the commits of the
others, so a cap is never passed and a job is never claimed twice (`concurrent_caps`). A claim that no one interrupts
does what `claimBatch` says (`claimBatch_alone`).
-/

namespace Eddyq.Pg

open Eddyq.Lib

/-! ## The discipline -/

/-- The rows that are watched: with a constant cap, and a bound on the running jobs. -/
structure Watch where
  row : Row
  cap : ℤ
  bound : ℤ

/-- A cap that binds, within the bound. -/
structure Watch.Binds (v : Watch) : Prop where
  le : v.cap ≤ v.bound
  limited : ∀ n, v.row = .queue n → v.cap < unlimited

/-- The row is there with its cap, its counter is not below its running jobs, and these are within the bound. -/
def Watch.Holds (v : Watch) (db : Db) : Prop :=
  ∃ count, db.Slots count v.cap v.row ∧ (db.runsAt v.row : ℤ) ≤ count ∧ (db.runsAt v.row : ℤ) ≤ v.bound

/-- The tables are keyed, and every watched row holds. -/
structure Watched (T : Watch → Prop) (db : Db) : Prop where
  keyed : Keyed db
  holds : ∀ v, T v → v.Holds db

/-- What is true of a claim and a watched row. -/
def ClaimTx.RoomAt (db : Db) (cap : ℤ) (x : ClaimTx) : Row → Prop
  | .job _ => True
  | .group k => x.GroupRoom db k cap
  | .queue n => x.QueueRoom db n cap

/-- What is true of an open transaction. -/
def Tx.Ok (T : Watch → Prop) (db : Db) : Tx → Prop
  | .claim x => x.Sound db ∧ ∀ v, T v → x.RoomAt db v.cap v.row
  | .settle x => x.Sound db

section Discipline

variable {T : Watch → Prop} {db db' : Db} {v : Watch}

theorem ClaimStmt.roomAt {free : Row → Prop} {x x' : ClaimTx} (hk : Keyed db) (hb : v.Binds) (hv : v.Holds db)
    (hsound : x.Sound db) (h : x.RoomAt db v.cap v.row) (hs : ClaimStmt free db x x') : x'.RoomAt db v.cap v.row := by
  obtain ⟨count, hslots, _⟩ := hv
  have hlim := hb.limited
  cases hr : v.row with
  | job id => trivial
  | group k =>
    rw [hr] at h hslots
    exact hs.groupRoom hk hslots hsound h
  | queue n =>
    rw [hr] at h hslots
    exact hs.queueRoom hk hslots (hlim n hr) hsound h

theorem ClaimTx.RoomAt.spared {own : Row → Prop} {x : ClaimTx} {cap : ℤ} {r : Row} (h : x.RoomAt db cap r)
    (hs : Spares own db db') (ho : ∀ r ∈ x.held, ¬ own r) : x.RoomAt db' cap r := by
  cases r with
  | job id => trivial
  | group k => exact ClaimTx.GroupRoom.spared h hs ho
  | queue n => exact ClaimTx.QueueRoom.spared h hs ho

/-- When a claim writes, its picks have room. -/
theorem ClaimTx.RoomAt.writing {x : ClaimTx} {c : Claiming} {slots : List (String × GroupState)} {cap count : ℤ} {r : Row}
    (hp : x.phase = .writing c slots) (hs : db.Slots count cap r) (h : x.RoomAt db cap r) :
    Room db x.held cap r (c.count r) := by
  cases r with
  | job id => exact hs.elim
  | group k =>
    simp only [ClaimTx.RoomAt, ClaimTx.GroupRoom, hp] at h
    exact h
  | queue n =>
    simp only [ClaimTx.RoomAt, ClaimTx.QueueRoom, hp] at h
    exact h

/-- **The commit of a claim** stays under the cap. -/
theorem ClaimCommit.holds {x : ClaimTx} (hk : Keyed db) (hb : v.Binds) (hv : v.Holds db) (hsound : x.Sound db)
    (h : x.RoomAt db v.cap v.row) (hc : ClaimCommit db x db') : v.Holds db' := by
  obtain ⟨count, hslots, hcount, hbound⟩ := hv
  cases hc with
  | @mk c slots at' counters =>
    have hruns := runsAt_commitClaim x.args slots x.now x.clock (hsound.pending hk at') v.row
    have hle := startedOf_le hk (hsound.allPicked at') v.row
    have hroom := ClaimTx.RoomAt.writing at' hslots h
    refine ⟨count + startedOf db c.ids v.row, Slots.commitClaim hk x.args slots c.ids x.now x.clock hslots, ?_, ?_⟩
    · rw [hruns]
      push_cast
      omega
    · rw [hruns]
      push_cast
      have hcap := hb.le
      rcases hroom with hnone | ⟨_, count', hslots', hfits⟩
      · omega
      · -- the counter under the lock is the counter now
        have heq : count' = count := hk.slots_unique hslots' hslots
        omega

/-- **The commit of a verdict or a recovery** keeps the counter at or above the running jobs. -/
theorem SettleCommit.holds {x : SettleTx} (hk : Keyed db) (hv : v.Holds db) (h : x.Sound db) (hc : SettleCommit db x db') :
    v.Holds db' := by
  obtain ⟨count, hslots, hcount, hbound⟩ := hv
  obtain ⟨p, f, db₁, hs⟩ := hc.settled hk h
  obtain ⟨_, hspares, hgrown⟩ := hs.grows.frame (hs.released.keyed hs.ids hk)
  obtain ⟨count', hslots', hle⟩ := hs.released.slots hslots
  have hruns := hs.released.runsAt hs.running hs.ended v.row
  have hsame := hgrown v.row
  refine ⟨count', (hspares (fun _ => False)).slots hslots' id, ?_, ?_⟩
  · omega
  · omega

theorem Tx.Commits.keyed {x : Tx} (hk : Keyed db) (h : x.Ok T db) (hc : x.Commits db db') : Keyed db' := by
  cases hc with
  | claim hc =>
    cases hc with
    | mk at' counters => exact hk.commitClaim ..
  | settle hc =>
    obtain ⟨p, f, db₁, hs⟩ := hc.settled hk h
    exact (hs.grows.frame (hs.released.keyed hs.ids hk)).1

/-- **The transactions of the backend keep to the rows they hold.** -/
theorem engine_disciplined (hT : ∀ v, T v → v.Binds) : engine.Disciplined (Watched T) (Tx.Ok T) Spares where
  begins_held := by
    intro x r hb
    cases hb <;> exact List.not_mem_nil
  begins_ok := by
    intro db x hw hb
    cases hb with
    | claim a now clock asks =>
      refine ⟨trivial, fun v _ => ?_⟩
      cases v.row <;> trivial
    | settle kind => exact fun _ hi => absurd hi List.not_mem_nil
  stmt_held := by
    intro free db x x' r hs hr
    -- a locking read returns rows that are free
    have hnew : ∀ {ρ : Type} {rows : List ρ} {row : ρ → Row}, (∀ j ∈ rows, free (row j)) →
        ∀ {held : List Row}, r ∈ held ++ rows.map row → r ∈ held ∨ free r := by
      intro ρ rows row hrows held hr
      rcases List.mem_append.mp hr with hr | hr
      · exact Or.inl hr
      · obtain ⟨j, hj, rfl⟩ := List.mem_map.mp hr
        exact Or.inr (hrows j hj)
    cases hs with
    | claim h =>
      cases h with
      | readQueues | walk | readExisting | write => exact Or.inl hr
      | lockQueues at' f hf => exact hnew (fun q hq => (hf _).mp (List.mem_filter.mp hq).2) hr
      | pickUngrouped at' f hf => exact hnew (fun j hj => (hf _).mp (mem_pick hj).2.2) hr
      | lockGroups at' f hf =>
        refine hnew (fun g hg => (hf _).mp ?_) hr
        exact (Bool.and_eq_true _ _ ▸ (List.mem_filter.mp hg).2).2
      | pickGrouped at' f hf => exact hnew (fun j hj => (hf _).mp (mem_pick hj).2.2) hr
      | lockCounter at' hr' hfree =>
        rcases List.mem_append.mp hr with hr | hr
        · exact Or.inl hr
        · exact Or.inr (List.mem_singleton.mp hr ▸ hfree)
    | settle h =>
      cases h with
      | take mem hit hfree =>
        rcases List.mem_append.mp hr with hr | hr
        · exact Or.inl hr
        · exact Or.inr (List.mem_singleton.mp hr ▸ hfree)
      | lockCounter hr' hfree =>
        rcases List.mem_append.mp hr with hr | hr
        · exact Or.inl hr
        · exact Or.inr (List.mem_singleton.mp hr ▸ hfree)
  stmt_ok := by
    intro free db x x' hw h hs
    cases hs with
    | claim hs =>
      exact ⟨hs.sound hw.keyed h.1, fun v hv => hs.roomAt hw.keyed (hT v hv) (hw.holds v hv) h.1 (h.2 v hv)⟩
    | settle hs => exact hs.sound h
  commits_inv := by
    intro db x db' hw h hc
    refine ⟨hc.keyed hw.keyed h, fun v hv => ?_⟩
    cases hc with
    | claim hc => exact hc.holds hw.keyed (hT v hv) (hw.holds v hv) h.1 (h.2 v hv)
    | settle hc => exact hc.holds hw.keyed (hw.holds v hv) h
  commits_same := by
    intro db x db' hw h hc
    cases hc with
    | claim hc => exact hc.spares hw.keyed h.1
    | settle hc => exact hc.spares hw.keyed h
  stable := by
    intro own db db' x hs ho h
    cases x with
    | claim x => exact ⟨h.1.spared hs ho, fun v hv => (h.2 v hv).spared hs ho⟩
    | settle x => exact SettleTx.Sound.spared h hs ho

end Discipline

/-! ## Every interleaving -/

/-- The rows with a cap that binds and a counter that is not below the running jobs, at the beginning. -/
def initialWatch (db : Db) (v : Watch) : Prop :=
  (∃ count, db.Slots count v.cap v.row ∧ (db.runsAt v.row : ℤ) ≤ count) ∧ v.bound = max v.cap (db.runsAt v.row) ∧
    ∀ n, v.row = .queue n → v.cap < unlimited

theorem initialWatch.binds {db : Db} {v : Watch} (h : initialWatch db v) : v.Binds :=
  ⟨h.2.1 ▸ le_max_left _ _, h.2.2⟩

theorem initialWatch.holds {db : Db} {v : Watch} (h : initialWatch db v) : v.Holds db := by
  obtain ⟨⟨count, hslots, hle⟩, hbound, _⟩ := h
  exact ⟨count, hslots, hle, hbound ▸ le_max_right _ _⟩

/-- What the discipline gives for the rows there are at the beginning. -/
theorem traffic_kept {τ : Type} [DecidableEq τ] {z₀ z : Traffic τ} (hidle : ∀ t, z₀.opened t = none)
    (hk : Keyed z₀.store) (h : Reach engine.Step z₀ z) :
    engine.Kept (Watched (initialWatch z₀.store)) (Tx.Ok (initialWatch z₀.store)) z :=
  (engine_disciplined (fun _ hv => hv.binds)).kept hidle ⟨hk, fun _ hv => hv.holds⟩ h

/-- The jobs of a claim run under its worker when it has committed. -/
theorem ClaimCommit.started {db db' : Db} {x : ClaimTx} (hsound : x.Sound db) (hc : ClaimCommit db x db') {id : JobId}
    (hid : id ∈ x.ids) : ∃ j ∈ db'.jobs, j.leasedTo id x.args.worker := by
  obtain ⟨_, j, hj, hjid, _⟩ := hsound.picked hid
  cases hc with
  | @mk c slots at' counters =>
    unfold ClaimTx.ids at hid
    rw [at'] at hid
    obtain ⟨gs, qs, heq⟩ := commitClaim_eq db x.args slots c.ids x.now x.clock
    rw [heq]
    refine ⟨_, mem_updateWhere_of_mem hj, ?_⟩
    have hin : decide (j.id ∈ c.ids) = true := decide_eq_true (hjid ▸ hid)
    rw [if_pos hin]
    simp [JobRow.leasedTo, JobRow.start, JobRow.running, hjid]

/-- **No interleaving of claims, verdicts and recoveries passes a cap or claims a job twice.** For a queue row with a cap
and for a group row, whose counter is not below its running jobs at the beginning, the committed running jobs stay within
the cap or where they were. No job is picked by two open claims; a picked job is pending until its claim commits, and
runs under that claim's worker then. -/
theorem concurrent_caps {τ : Type} [DecidableEq τ] (z₀ z : Traffic τ) (hidle : ∀ t, z₀.opened t = none)
    (hk : Keyed z₀.store) (h : Reach engine.Step z₀ z) :
    (∀ q ∈ z₀.store.queues, q.maxConcurrency < unlimited → (z₀.store.runsAt (.queue q.name) : ℤ) ≤ q.runningCount →
      (z.store.runsAt (.queue q.name) : ℤ) ≤ max q.maxConcurrency (z₀.store.runsAt (.queue q.name))) ∧
    (∀ g ∈ z₀.store.groups, (z₀.store.runsAt (.group g.key) : ℤ) ≤ g.runningCount →
      (z.store.runsAt (.group g.key) : ℤ) ≤ max g.maxConcurrency (z₀.store.runsAt (.group g.key))) ∧
    (∀ t t' x x', t ≠ t' → z.opened t = some (.claim x) → z.opened t' = some (.claim x') → ∀ id ∈ x.ids, id ∉ x'.ids) ∧
    (∀ t x, z.opened t = some (.claim x) → ∀ id ∈ x.ids, (∃ j ∈ z.store.jobs, j.id = id ∧ j.state = .pending) ∧
      ∀ db', ClaimCommit z.store x db' → ∃ j ∈ db'.jobs, j.leasedTo id x.args.worker) := by
  have hkept := traffic_kept hidle hk h
  have hbound : ∀ v, initialWatch z₀.store v → (z.store.runsAt v.row : ℤ) ≤ v.bound := by
    intro v hv
    obtain ⟨_, _, _, hle⟩ := hkept.inv.holds v hv
    exact hle
  refine ⟨fun q hq hcap hcount => ?_, fun g hg hcount => ?_, fun t t' x x' hne hx hx' id hid hid' => ?_,
    fun t x hx id hid => ?_⟩
  · refine hbound { row := .queue q.name, cap := q.maxConcurrency, bound := _ } ⟨⟨q.runningCount, ?_, hcount⟩, rfl, ?_⟩
    · exact ⟨q, hq, rfl, rfl, rfl⟩
    · exact fun _ _ => hcap
  · refine hbound { row := .group g.key, cap := g.maxConcurrency, bound := _ } ⟨⟨g.runningCount, ?_, hcount⟩, rfl, nofun⟩
    exact ⟨g, hg, rfl, rfl, rfl⟩
  · obtain ⟨hsound, _⟩ := hkept.ok hx
    obtain ⟨hsound', _⟩ := hkept.ok hx'
    exact hkept.exclusive (.job id) hne hx hx' (hsound.picked hid).1 (hsound'.picked hid').1
  · obtain ⟨hsound, _⟩ := hkept.ok hx
    exact ⟨(hsound.picked hid).2, fun db' hc => hc.started hsound hid⟩

/-! ## A claim that no one interrupts -/

section Alone

variable {τ : Type} [DecidableEq τ] {t : τ} {db : Db} {x x' : ClaimTx} {z₀ : Traffic τ}

/-- One claim and no other transaction. -/
def solo (t : τ) (db : Db) (x : ClaimTx) : Traffic τ where
  store := db
  opened := Function.update (fun _ => none) t (some (.claim x))

/-- No transaction at all. -/
def quiet (db : Db) : Traffic τ := { store := db, opened := fun _ => none }

theorem solo_opened (t : τ) (db : Db) (x : ClaimTx) : (solo t db x).opened t = some (.claim x) := by
  simp [solo]

/-- Every row is free. -/
theorem free_solo (t : τ) (db : Db) (x : ClaimTx) (r : Row) : engine.Free (solo t db x) t r := by
  intro t' l hne hl
  simp only [solo, Function.update_of_ne hne] at hl
  cases hl

theorem solo_stmt (h : Reach engine.Step z₀ (solo t db x)) (hs : ClaimStmt (engine.Free (solo t db x) t) db x x') :
    Reach engine.Step z₀ (solo t db x') := by
  have hstep : engine.Step (solo t db x) t { solo t db x with
      opened := Function.update (solo t db x).opened t (some (.claim x')) } :=
    .stmt (solo_opened t db x) (.claim hs)
  have heq : { solo t db x with opened := Function.update (solo t db x).opened t (some (.claim x')) } =
      solo t db x' := by
    simp only [solo, Function.update_idem]
  exact Reach.step h (heq ▸ hstep)

theorem solo_commit {db' : Db} (h : Reach engine.Step z₀ (solo t db x)) (hc : ClaimCommit db x db') :
    Reach engine.Step z₀ (quiet db') := by
  have hstep : engine.Step (solo t db x) t { store := db', opened := Function.update (solo t db x).opened t none } :=
    .commit (solo_opened t db x) (.claim hc)
  have heq : { store := db', opened := Function.update (solo t db x).opened t none } = quiet db' := by
    simp only [solo, quiet, Function.update_idem, Function.update_eq_self]
  exact Reach.step h (heq ▸ hstep)

/-- The fast lane, queue by queue. -/
theorem solo_fast : ∀ (todo : List String) {c : Claiming} {x : ClaimTx}, x.phase = .fast c todo →
    Reach engine.Step z₀ (solo t db x) → ∃ held, Reach engine.Step z₀ (solo t db { x with
      phase := .fast (todo.foldl (claimUngrouped db (fun _ => true) x.args x.now) c) [], held := held })
  | [], c, x, hp, h => by
    refine ⟨x.held, ?_⟩
    have heq : x = { x with phase := .fast c [] } := by
      cases x
      cases hp
      rfl
    rw [heq] at h
    exact h
  | q :: todo, c, x, hp, h => by
    have hs := solo_stmt h (.pickUngrouped hp (fun _ => true) (fun r => iff_of_true rfl (free_solo t db x r)))
    obtain ⟨held, hrest⟩ := solo_fast todo rfl hs
    exact ⟨held, hrest⟩

/-- The slow lane, group by group. -/
theorem solo_slow {qs : List String} {slots : List (String × GroupState)} : ∀ (todo : List (String × GroupState))
    {c : Claiming} {x : ClaimTx}, x.phase = .slow c qs slots todo → Reach engine.Step z₀ (solo t db x) →
      ∃ held, Reach engine.Step z₀ (solo t db { x with
        phase := .slow (todo.foldl (claimGrouped db (fun _ => true) x.args x.now qs) c) qs slots [], held := held })
  | [], c, x, hp, h => by
    refine ⟨x.held, ?_⟩
    have heq : x = { x with phase := .slow c qs slots [] } := by
      cases x
      cases hp
      rfl
    rw [heq] at h
    exact h
  | g :: todo, c, x, hp, h => by
    have hs := solo_stmt h (.pickGrouped hp (fun _ => true) (fun r => iff_of_true rfl (free_solo t db x r)))
    obtain ⟨held, hrest⟩ := solo_slow todo rfl hs
    exact ⟨held, hrest⟩

/-- The counters, one by one. -/
theorem solo_counters {c : Claiming} {slots : List (String × GroupState)} : ∀ (rows : List Row) {x : ClaimTx},
    x.phase = .writing c slots → (∀ r ∈ rows, r ∈ counterRows db (claimedRows db c.ids x.args.worker x.now)) →
      Reach engine.Step z₀ (solo t db x) → Reach engine.Step z₀ (solo t db { x with held := x.held ++ rows })
  | [], x, _, _, h => by
    rw [List.append_nil]
    exact h
  | r :: rows, x, hp, hrows, h => by
    have hs := solo_stmt h (.lockCounter hp (hrows r List.mem_cons_self) (free_solo t db x r))
    have hrest := solo_counters rows (x := { x with held := x.held ++ [r] }) hp
      (fun r' hr' => hrows r' (List.mem_cons_of_mem _ hr')) hs
    rw [List.append_assoc, List.singleton_append] at hrest
    exact hrest

/-- **Without interruption the statements of a claim make `claimBatch`.** -/
theorem claimBatch_alone (t : τ) (db : Db) (a : ClaimArgs) (now clock : ℤ) (order : MapOrder) :
    Reach engine.Step (quiet db : Traffic τ) (quiet (claimBatch db a now clock order).1) := by
  unfold claimBatch
  split
  · exact Reach.refl _
  next hask =>
  dsimp only
  split
  · exact Reach.refl _
  next hroom =>
  split
  · exact Reach.refl _
  next hsome =>
  have h₀ : Reach engine.Step (quiet db) (solo t db { args := a, now := now, clock := clock }) :=
    Reach.step (Reach.refl _) (.begin rfl (.claim a now clock hask))
  have hlock : ∀ names, lockQueues db (fun _ => true) names = readQueues db names := fun names => List.filter_true _
  have h₁ := solo_stmt h₀ (.readQueues rfl)
  have h₂ := solo_stmt h₁ (.lockQueues rfl (fun _ => true) (fun r => iff_of_true rfl (free_solo t db _ r)) rfl
    (by rw [hlock]; exact hroom))
  obtain ⟨held, h₃⟩ := solo_fast a.queues rfl h₂
  have h₄ := solo_stmt h₃ (.walk rfl)
  have h₅ := solo_stmt h₄ (.lockGroups rfl (fun _ => true) (fun r => iff_of_true rfl (free_solo t db _ r)))
  have h₆ := solo_stmt h₅ (.readExisting rfl order rfl)
  obtain ⟨held', h₇⟩ := solo_slow _ rfl h₆
  have hpicks : (claimPicks db a now clock order).1.accepted ≠ [] := hsome
  have h₈ := solo_stmt h₇ (.write rfl (by rw [hlock]; exact hpicks))
  have h₉ := solo_counters _ rfl (fun _ hr => hr) h₈
  have h₁₀ := solo_commit h₉ (.mk rfl (fun r hr => List.mem_append_right _ hr))
  simp only [hlock] at h₁₀
  exact h₁₀

end Alone

/-! ## Two claims in turns -/

/-- The next statement of a claim, when the rows `taken` are held by others; groups are visited in the order of the
rows. -/
def ClaimTx.next (db : Db) (taken : List Row) (x : ClaimTx) : ClaimTx :=
  match x.phase with
  | .begun => { x with phase := .read (readQueues db x.args.queues) }
  | .read rows =>
    let locked := lockQueues db (fun n => .queue n ∉ taken) (bindingNames rows)
    { x with
      phase := .fast { budget := queueBudgets rows locked } x.args.queues
      held := x.held ++ locked.map (fun q => .queue q.name) }
  | .fast c (q :: todo) =>
    { x with
      phase := .fast (claimUngrouped db (fun id => .job id ∉ taken) x.args x.now c q) todo
      held := x.held ++ (ungroupedPick db (fun id => .job id ∉ taken) x c q).map (fun j => .job j.id) }
  | .fast c [] => { x with phase := .walked c (activeGroupKeys db x.args x.now c) }
  | .walked c keys =>
    let locked := lockGroups db (fun k => .group k ∉ taken) keys
    { x with phase := .grouped c keys locked, held := x.held ++ locked.map (fun g => .group g.key) }
  | .grouped c keys rows =>
    let slots := groupSlots rows keys (existingKeys db keys) x.clock
    { x with phase := .slow c (openQueues x.args c) slots slots }
  | .slow c qs slots (g :: todo) =>
    { x with
      phase := .slow (claimGrouped db (fun id => .job id ∉ taken) x.args x.now qs c g) qs slots todo
      held := x.held ++ (groupedPick db (fun id => .job id ∉ taken) x c qs g).map (fun j => .job j.id) }
  | .slow c _ slots [] => { x with phase := .writing c slots }
  | .writing c _ =>
    { x with held := x.held ++ (counterRows db (claimedRows db c.ids x.args.worker x.now)).take 1 }

/-- The claim goes on: there is room, there is a pick, and the counter to bump (one, here) is free. -/
def ClaimTx.ready (db : Db) (taken : List Row) (x : ClaimTx) : Bool :=
  match x.phase with
  | .read rows =>
    let c : Claiming := { budget := queueBudgets rows (lockQueues db (fun n => .queue n ∉ taken) (bindingNames rows)) }
    !x.args.queues.all (fun q => c.budgetFor q ≤ 0)
  | .slow c _ _ [] => !c.accepted.isEmpty
  | .writing c _ => (counterRows db (claimedRows db c.ids x.args.worker x.now)).head?.any (· ∉ taken)
  | _ => true

theorem ClaimTx.next_stmt {free : Row → Prop} {db : Db} {taken : List Row} {x : ClaimTx}
    (hfree : ∀ r, decide (r ∉ taken) = true ↔ free r) (hr : x.ready db taken) : ClaimStmt free db x (x.next db taken) := by
  unfold ClaimTx.ready at hr
  unfold ClaimTx.next
  cases hp : x.phase with
  | begun => exact .readQueues hp
  | read rows =>
    rw [hp] at hr
    exact .lockQueues hp (fun r => r ∉ taken) hfree rfl (by simpa using hr)
  | fast c todo =>
    cases todo with
    | nil => exact .walk hp
    | cons q todo => exact .pickUngrouped hp (fun r => r ∉ taken) hfree
  | walked c keys => exact .lockGroups hp (fun r => r ∉ taken) hfree
  | grouped c keys rows => exact .readExisting hp { list := fun l => l, perm := MapOrder.asRead } rfl
  | slow c qs slots todo =>
    cases todo with
    | nil =>
      rw [hp] at hr
      exact .write hp (by simpa using hr)
    | cons g todo => exact .pickGrouped hp (fun r => r ∉ taken) hfree
  | writing c slots =>
    rw [hp] at hr
    dsimp only at hr ⊢
    cases hc : counterRows db (claimedRows db c.ids x.args.worker x.now) with
    | nil =>
      rw [hc] at hr
      cases hr
    | cons r rows =>
      rw [hc] at hr
      have hs := ClaimStmt.lockCounter hp (hc ▸ List.mem_cons_self) ((hfree r).mp hr)
      rw [hp] at hs
      exact hs

/-- A turn of one of two transactions. -/
inductive Turn
  | begin (t : Bool) (a : ClaimArgs) (now : ℤ)
  | stmt (t : Bool)
  | commit (t : Bool)

/-- The rows that the other one holds. -/
def peerRows (z : Traffic Bool) (t : Bool) : List Row := ((z.opened !t).map Tx.held).getD []

/-- The claim of `t`. -/
def claimOf (z : Traffic Bool) (t : Bool) : Option ClaimTx :=
  match z.opened t with
  | some (.claim x) => some x
  | _ => none

/-- The claim has its counters and commits. -/
def ClaimTx.commits (db : Db) (x : ClaimTx) : Option Db :=
  match x.phase with
  | .writing c slots =>
    if (counterRows db (claimedRows db c.ids x.args.worker x.now)).all (· ∈ x.held) then
      some (commitClaim db x.args slots c.ids x.now x.clock)
    else none
  | _ => none

/-- Take a turn, if there is one to take. -/
def Turn.take (z : Traffic Bool) : Turn → Option (Traffic Bool)
  | .begin t a now =>
    if (z.opened t).isNone ∧ ¬ (a.batchSize = 0 ∨ a.kinds = [] ∨ a.queues = []) then
      some { z with opened := Function.update z.opened t (some (.claim { args := a, now := now, clock := now })) }
    else none
  | .stmt t => do
    let x ← claimOf z t
    if x.ready z.store (peerRows z t) then
      some { z with opened := Function.update z.opened t (some (.claim (x.next z.store (peerRows z t)))) }
    else none
  | .commit t => do
    let x ← claimOf z t
    let db ← x.commits z.store
    some { store := db, opened := Function.update z.opened t none }

section Turns

variable {z z' : Traffic Bool} {t : Bool}

theorem claimOf_some {x : ClaimTx} (h : claimOf z t = some x) : z.opened t = some (.claim x) := by
  unfold claimOf at h
  split at h
  · next heq =>
    cases h
    exact heq
  · cases h

/-- With two transactions, a row is free when the other does not hold it. -/
theorem free_iff (z : Traffic Bool) (t : Bool) (r : Row) : decide (r ∉ peerRows z t) = true ↔ engine.Free z t r := by
  rw [decide_eq_true_iff, peerRows]
  constructor
  · intro hno t' l hne hl hr
    have ht : t' = !t := by cases t <;> cases t' <;> simp at hne ⊢
    subst ht
    rw [hl] at hno
    exact hno hr
  · intro hfree hr
    cases hl : z.opened !t with
    | none =>
      rw [hl] at hr
      exact absurd hr List.not_mem_nil
    | some l =>
      rw [hl] at hr
      exact hfree (!t) l (by cases t <;> simp) hl hr

theorem Turn.take_step {u : Turn} (h : u.take z = some z') : ∃ t, engine.Step z t z' := by
  cases u with
  | begin t a now =>
    simp only [Turn.take] at h
    split at h
    · next hb =>
      cases h
      exact ⟨t, .begin (Option.isNone_iff_eq_none.mp hb.1) (.claim a now now hb.2)⟩
    · cases h
  | stmt t =>
    obtain ⟨x, hx, h⟩ := Option.bind_eq_some_iff.mp h
    split at h
    · next hr =>
      cases h
      exact ⟨t, .stmt (claimOf_some hx) (.claim (x.next_stmt (free_iff z t) hr))⟩
    · cases h
  | commit t =>
    obtain ⟨x, hx, h⟩ := Option.bind_eq_some_iff.mp h
    obtain ⟨db, hdb, h⟩ := Option.bind_eq_some_iff.mp h
    cases h
    refine ⟨t, .commit (claimOf_some hx) (.claim ?_)⟩
    unfold ClaimTx.commits at hdb
    split at hdb
    · next hp =>
      split at hdb
      · next hall =>
        cases hdb
        exact .mk hp (fun r hr => of_decide_eq_true (List.all_eq_true.mp hall r hr))
      · cases hdb
    · cases hdb

/-- Turns are steps. -/
theorem turns_reach {z₀ : Traffic Bool} : ∀ (us : List Turn) {z : Traffic Bool}, Reach engine.Step z₀ z →
    us.foldlM Turn.take z = some z' → Reach engine.Step z₀ z'
  | [], z, h, hus => by
    cases hus
    exact h
  | u :: us, z, h, hus => by
    rw [List.foldlM_cons] at hus
    obtain ⟨z₁, hu, hus⟩ := Option.bind_eq_some_iff.mp hus
    obtain ⟨t, hs⟩ := Turn.take_step hu
    exact turns_reach us (h.step hs) hus

end Turns

/-- Two jobs on a queue with one slot, one on a queue without a row. -/
def oneSlot : Db where
  jobs := [newJob { kind := "mail", payload := .null, queue := "slow" } 1 1000,
    newJob { kind := "mail", payload := .null, queue := "slow" } 2 1000,
    newJob { kind := "mail", payload := .null, queue := "open" } 3 1000]
  queues := [{ name := "slow", maxConcurrency := 1 }]
  nextJob := 4

/-- Both claims see the free slot; one gets the row of the queue, the other has to do without it. -/
def contested : List Turn :=
  let a : ClaimArgs := { worker := "a", batchSize := 4, kinds := ["mail"], queues := ["slow"] }
  let b : ClaimArgs := { worker := "b", batchSize := 4, kinds := ["mail"], queues := ["slow", "open"] }
  [.begin false a 2000, .begin true b 2000, .stmt false, .stmt true, .stmt false, .stmt true, .stmt true, .stmt true,
    .stmt false, .stmt true, .stmt true, .stmt true, .stmt true, .commit true, .stmt false, .stmt false, .stmt false,
    .stmt false, .stmt false, .commit false]

/-- The slot is taken once, and the other claim has taken the job of the other queue. -/
theorem contested_capped : ∃ z, contested.foldlM Turn.take (quiet oneSlot) = some z ∧
    (z.store.runsAt (.queue "slow") : ℤ) ≤ max 1 (oneSlot.runsAt (.queue "slow")) ∧
    z.store.runsAt (.queue "slow") = 1 ∧ z.store.runsAt (.queue "open") = 1 := by
  have hruns : (contested.foldlM Turn.take (quiet oneSlot)).map (fun z =>
      (z.store.runsAt (.queue "slow"), z.store.runsAt (.queue "open"))) = some (1, 1) := by decide +kernel
  obtain ⟨z, hz, hpair⟩ := Option.map_eq_some_iff.mp hruns
  have hk : Keyed oneSlot := ⟨by decide, by decide, by decide, by decide⟩
  have hcaps := concurrent_caps (quiet oneSlot) z (fun _ => rfl) hk (turns_reach contested (Reach.refl _) hz)
  refine ⟨z, hz, hcaps.1 _ (List.mem_singleton_self _) (by decide) (by decide), ?_⟩
  exact Prod.mk.inj hpair

end Eddyq.Pg
