import Eddyq.LifeCycle
import Eddyq.Redis.Lives

/-!
# The life cycle on Redis

`Does` is how the backend is asked: which function of the library runs, with whatever clocks. Each of them rewrites the
HASHes of the jobs it is for, all in the same way (`Shows.turned`), so `Does.shows` is the simulation: while no job has
a retention rule, the HASHes show the life cycle.
-/

namespace Eddyq.Redis

open Eddyq.Lib

/-- The function call that a request leads to, and the store after it; `text` is how `serde_json` writes a value. -/
inductive Does (text : Json → String) (s : Store) : Ask → Store → Prop
  | enqueue (r : DynEnqueue) (now : ℤ) : Does text s (.enqueue r) (fnEnqueue s (dynToArgv text r) now).1
  | claim (a : ClaimArgs) {ids : List JobId} (hids : ∀ id, id ∈ ids ↔ id ∈ (fnClaim s a).2.map (·.id)) :
      Does text s (.claim ids a.worker) (fnClaim s a).1
  | complete (id : JobId) (w : WorkerId) (result : Option Json) (now : ℤ) :
      Does text s (.complete id w result) (fnComplete s id w now ((result.map text).getD "")).1
  | fail (id : JobId) (w : WorkerId) (error : Json) (retryAt : Option ℤ) (now : ℤ) :
      Does text s (.fail id w error retryAt) (fnFail s id w now (text error) (retryAtMs retryAt)).1
  | sweep (staleBefore : ℤ) (batchMax : Nat) {ids : List JobId}
      (hids : ∀ id, id ∈ ids ↔ id ∈ s.staleIds staleBefore batchMax) :
      Does text s (.sweep ids) (fnSweepStale s staleBefore batchMax).1
  | reclaim (ids : List JobId) (now : ℤ) : Does text s (.reclaim ids) (fnReclaimInFlight s now ids).1
  | cancel (id : JobId) (now : ℤ) : Does text s (.cancel id) (fnCancel s id now).1
  | promote (now : ℤ) (batchMax : Nat) : Does text s .promote (fnPromoteDelayed s now batchMax).1

/-- The store shows the life cycle; no job has a retention rule. -/
structure Shows (s : Store) (c : LifeCycle) : Prop where
  refines : ∃ A, Refines False s A
  rules : ∀ id, (s.hash id).removeOnComplete = none ∧ (s.hash id).removeOnFail = none
  next : s.idgen + 1 = c.next
  lives : s.life = c.lives

/-! ## The id counter -/

section Idgen

variable (s : Store) (id : JobId) (now : ℤ)

theorem recoverOne_idgen (e : String) : (recoverOne now e s id).1.idgen = s.idgen := by
  unfold recoverOne
  dsimp only
  split
  · simp
  · split <;> simp

theorem reclaimOne_idgen : (reclaimOne now s id).1.idgen = s.idgen := by
  unfold reclaimOne
  split
  · exact recoverOne_idgen s id now _
  · rfl

theorem promoteOne_idgen : (promoteOne now s id).1.idgen = s.idgen := by
  unfold promoteOne
  dsimp only
  split <;> simp

/-- A loop over jobs leaves the counter where its body does. -/
theorem forEachCount_idgen {f : Store → JobId → Store × Bool} (hf : ∀ s id, (f s id).1.idgen = s.idgen)
    (hit : Store → JobId → Bool) (ids : List JobId) : (forEachCount f hit ids s).1.idgen = s.idgen := by
  rw [forEachCount_fst]
  exact forEach_inv (P := fun x : Store => x.idgen = s.idgen) rfl (fun x i _ hx => (hf x i).trans hx)

theorem markCancelled_idgen (q : Option String) : (markCancelled s id q now).idgen = s.idgen := by
  simp [markCancelled]

theorem fnCancel_idgen : (fnCancel s id now).1.idgen = s.idgen := by
  unfold fnCancel
  dsimp only
  split
  · split
    · rfl
    · rw [markCancelled_idgen]
      rfl
  · rw [markCancelled_idgen, zremBoth_idgen]
  · rfl

theorem Verdict.idgen (v : Verdict) (w : WorkerId) (hc : (s.hash id).removeOnComplete = none)
    (hf : (s.hash id).removeOnFail = none) : ((v.toOp id w).apply s).idgen = s.idgen := by
  have hrest : ∀ (x : Store) (z : ZKey) (nq : Option ZKey) (now : ℤ), (finalize x id z nq none now).idgen = x.idgen :=
    fun x z nq now => zaddBoth_idgen x id z nq now
  cases v with
  | complete now result =>
    show (fnComplete s id w now result).1.idgen = s.idgen
    unfold fnComplete
    split
    · rfl
    · dsimp only
      rw [hc, hrest]
      simp
  | fail now error retryAt =>
    show (fnFail s id w now error retryAt).1.idgen = s.idgen
    have hf : ((s.pushError id error).hash id).removeOnFail = none := hf
    unfold fnFail
    split
    · rfl
    · dsimp only
      split
      · split
        · split <;> simp
        · simp
      · rw [hf, hrest]
        simp

end Idgen

/-! ## The simulation -/

section Shows

variable {s s' : Store} {c : LifeCycle} {id : JobId} {w : WorkerId} {text : Json → String}

/-- A rewriting of HASHes that is an event of those it hits. -/
theorem turn_life {x : JobHash} {g : JobHash → JobHash} {e : Event WorkerId} {b : Prop} [Decidable b]
    {q : Life WorkerId → Bool} (hg : ∀ l, x.life = some l → (g x).life = some (l.next e)) (hb : b → x.life.isSome)
    (hq : ∀ l, x.life = some l → (q l ↔ b)) :
    (if b then g x else x).life = x.life.map (fun l => if q l then l.next e else l) := by
  cases hl : x.life with
  | none =>
    have hno : ¬ b := fun h => by simpa [hl] using hb h
    rw [if_neg hno, hl]
    rfl
  | some l =>
    have hq := hq l hl
    by_cases h : b
    · rw [if_pos h, hg l hl, Option.map_some, if_pos (hq.mpr h)]
    · rw [if_neg h, hl, Option.map_some, if_neg (fun hh => h (hq.mp hh))]

/-- A call that rewrites HASHes, keeping the rules. -/
theorem Shows.turned (h : Shows s c) (op : Op) (hok : op.Ok False s) (hn : (op.apply s).idgen = s.idgen)
    {p : JobId → Prop} [DecidablePred p] {g : JobHash → JobHash}
    (hh : ∀ id, (op.apply s).hash id = if p id then g (s.hash id) else s.hash id)
    (hg : ∀ x : JobHash, (g x).removeOnComplete = x.removeOnComplete ∧ (g x).removeOnFail = x.removeOnFail)
    {lives : JobId → Option (Life WorkerId)} (hl : ∀ id, (if p id then g (s.hash id) else s.hash id).life = lives id) :
    Shows (op.apply s) { c with lives := lives } := by
  obtain ⟨A, hA⟩ := h.refines
  obtain ⟨A', _, hA'⟩ := Op.apply_sim hA op hok
  refine ⟨⟨A', hA'⟩, fun id => ?_, ?_, ?_⟩
  · rw [hh]
    split
    · rw [(hg _).1, (hg _).2]
      exact h.rules id
    · exact h.rules id
  · rw [hn]
    exact h.next
  · funext id
    rw [Store.life, hh]
    exact hl id

/-- The life of the HASH is that of the cycle. -/
theorem Shows.life (h : Shows s c) (id : JobId) : c.lives id = (s.hash id).life := by
  rw [← h.lives]
  rfl

theorem Shows.enqueue (h : Shows s c) {r : DynEnqueue} (ho : (Ask.enqueue r).Ordinary) (now : ℤ) :
    Shows (fnEnqueue s (dynToArgv text r) now).1 ((Ask.enqueue r).step c) := by
  obtain ⟨A, hA⟩ := h.refines
  obtain ⟨A', _, hA'⟩ := fnEnqueue_sim hA (dynToArgv text r) now nofun
  have hkey : (dynToArgv text r).uniqueKey = "" := by simp [dynToArgv, ho.1]
  have heq : (fnEnqueue s (dynToArgv text r) now).1 =
      insertJob { s with idgen := s.idgen + 1 } (dynToArgv text r) (s.idgen + 1) now := by
    simp [fnEnqueue, hkey]
  have hhash : ∀ j, (fnEnqueue s (dynToArgv text r) now).1.hash j =
      if j = s.idgen + 1 then (dynToArgv text r).toHash (s.idgen + 1) now {} else s.hash j := by
    intro j
    rw [heq]
    have hcell : ({ s with idgen := s.idgen + 1 } : Store).cell = s.cell := rfl
    exact insertJob_next hA hcell _ now j
  refine ⟨⟨A', hA'⟩, fun id => ?_, ?_, ?_⟩
  · rw [hhash]
    split
    · exact ⟨ho.2.1, ho.2.2⟩
    · exact h.rules id
  · rw [heq, insertJob_idgen]
    exact congrArg (· + 1) h.next
  · funext id
    show Store.life _ id = Function.update c.lives c.next _ id
    rw [Store.life, hhash, ← h.next]
    by_cases hid : id = s.idgen + 1
    · subst hid
      rw [if_pos rfl, Function.update_self]
      exact toHash_life _ _ _ _
    · rw [if_neg hid, Function.update_of_ne hid]
      exact (h.life id).symm

theorem Shows.claim (h : Shows s c) (a : ClaimArgs) {ids : List JobId}
    (hids : ∀ id, id ∈ ids ↔ id ∈ (fnClaim s a).2.map (·.id)) :
    Shows (fnClaim s a).1 ((Ask.claim ids a.worker).step c) := by
  have hr := fnClaim_replied s a
  refine h.turned (.claim a) trivial hr.idgen (p := (· ∈ ids)) (g := JobHash.started a) (fun id => ?_)
    (fun _ => ⟨rfl, rfl⟩) (fun id => ?_)
  · show (fnClaim s a).1.hash id = _
    split
    · next hin =>
      obtain ⟨j, hj, rfl⟩ := List.mem_map.mp ((hids id).mp hin)
      exact (hr.handed j hj).2.1
    · next hout => exact hr.rest id (fun hin => hout ((hids id).mpr hin))
  · rw [alter, h.life]
    refine turn_life (fun l hl => started_life a hl) (fun hin => ?_) (fun l _ => decide_eq_true_iff)
    obtain ⟨j, hj, rfl⟩ := List.mem_map.mp ((hids id).mp hin)
    have hst : (s.hash j.id).state = some .pending := (hr.handed j hj).1
    rw [life_of_state hst]
    rfl

/-- The rules are no part of a verdict. -/
theorem mark_rules (v : Verdict) (x : JobHash) :
    (v.mark x).removeOnComplete = x.removeOnComplete ∧ (v.mark x).removeOnFail = x.removeOnFail := by
  cases v with
  | complete now result => exact ⟨rfl, rfl⟩
  | fail now error retryAt =>
    unfold Verdict.mark
    dsimp only
    split
    · split <;> exact ⟨rfl, rfl⟩
    · exact ⟨rfl, rfl⟩

theorem Shows.verdict (h : Shows s c) (hl : LeaseOf c.lives id w) (v : Verdict) :
    Shows ((v.toOp id w).apply s) { c with lives := alter (fun i _ => i = id) v.event c.lives } := by
  obtain ⟨l, hlife, hp⟩ := hl
  rw [← h.lives] at hlife
  -- what the worker was told when the lease began does not matter here
  let x : Lease JobId WorkerId := ⟨id, w, 0, 0⟩
  have hruns : desk.Runs s x := ⟨l, hlife, hp⟩
  have hleased := leased_of_runs hruns
  obtain ⟨hc, hf⟩ := h.rules id
  refine h.turned (v.toOp id w) (Verdict.ok_of_runs hruns v) (Verdict.idgen s id v w hc hf) (p := (· = id)) (g := v.mark) (fun j => ?_)
    (mark_rules v) (fun j => ?_)
  · rcases v.writes s id w with ⟨hno, _⟩ | ⟨y, hy, _, hjob⟩
    · exact absurd hleased.2 hno
    · rw [hash_congr (hjob hc hf), hash_hset, hy]
      split
      · next hj => rw [hj]
      · rfl
  · rw [alter, h.life]
    refine turn_life (fun l hl => mark_life v hl) (fun hj => ?_) (fun l _ => decide_eq_true_iff)
    subst hj
    have hlife : (s.hash j).life = some l := hlife
    rw [hlife]
    rfl

theorem Shows.sweep (h : Shows s c) (t : ℤ) (n : Nat) {ids : List JobId} (hids : ∀ id, id ∈ ids ↔ id ∈ s.staleIds t n) :
    Shows (fnSweepStale s t n).1 ((Ask.sweep ids).step c) := by
  obtain ⟨A, hA⟩ := h.refines
  refine h.turned (.sweepStale t n) trivial
    (forEachCount_idgen s (fun s id => recoverOne_idgen s id t _) _ _) (p := (· ∈ s.staleIds t n))
    (g := JobHash.recovered t) (fun id => fnSweepStale_hash hA t n id) (fun x => ?_) (fun id => ?_)
  · unfold JobHash.recovered
    split <;> exact ⟨rfl, rfl⟩
  · rw [alter, h.life]
    refine turn_life (fun l hl => recovered_life t _ hl) (fun hin => ?_) (fun l _ => ?_)
    · have hst : (s.hash id).state = some .running := hA.stale_running hin
      rw [life_of_state hst]
      rfl
    · rw [decide_eq_true_iff]
      exact hids id

/-- The life of a HASH is running when its state is. -/
theorem runs_lifeIn {x : JobHash} {l : Life WorkerId} (hl : x.life = some l) : runs l ↔ x.state = some .running := by
  obtain ⟨st, hst, rfl⟩ := Option.map_eq_some_iff.mp hl
  rw [hst]
  cases st <;> simp [runs, JobHash.lifeIn, JobHash.phase]

theorem Shows.reclaim (h : Shows s c) (ids : List JobId) (now : ℤ) :
    Shows (fnReclaimInFlight s now ids).1 ((Ask.reclaim ids).step c) := by
  obtain ⟨A, hA⟩ := h.refines
  refine h.turned (.reclaimInFlight now ids) trivial
    (forEachCount_idgen s (fun s id => reclaimOne_idgen s id now) _ _)
    (p := fun id => id ∈ ids ∧ (s.hash id).state = some .running) (g := JobHash.recovered now) (fun id => ?_) (fun x => ?_)
    (fun id => ?_)
  · show (fnReclaimInFlight s now ids).1.hash id = _
    rw [fnReclaimInFlight_hash hA, JobHash.reclaimed, ite_and]
  · unfold JobHash.recovered
    split <;> exact ⟨rfl, rfl⟩
  · rw [alter, h.life]
    refine turn_life (fun l hl => recovered_life now _ hl) (fun hin => ?_) (fun l hl => ?_)
    · rw [life_of_state hin.2]
      rfl
    · rw [Bool.and_eq_true, decide_eq_true_iff, runs_lifeIn hl]

theorem waits_lifeIn {x : JobHash} {l : Life WorkerId} (hl : x.life = some l) :
    l.phase = .waiting ↔ x.state = some .pending ∨ x.state = some .scheduled := by
  obtain ⟨st, hst, rfl⟩ := Option.map_eq_some_iff.mp hl
  rw [hst]
  cases st <;> simp [JobHash.lifeIn, JobHash.phase]

theorem waits_iff (s : Store) (id : JobId) :
    s.waits id ↔ (s.hash id).state = some .pending ∨ (s.hash id).state = some .scheduled := by
  rw [Store.waits, Bool.or_eq_true, decide_eq_true_iff, decide_eq_true_iff]
  rfl

/-- The job waits in the store when it waits in the cycle. -/
theorem Shows.waits (h : Shows s c) (id : JobId) : s.waits id = decide ((c.lives id).map (·.phase) = some .waiting) := by
  rw [h.life, Bool.eq_iff_iff, decide_eq_true_iff, waits_iff]
  cases hl : (s.hash id).life with
  | none =>
    have hst : (s.hash id).state = none := Option.map_eq_none_iff.mp hl
    simp [hst]
  | some l => rw [← waits_lifeIn hl, Option.map_some, Option.some.injEq]

/-- What a cancellation makes of a HASH. -/
def JobHash.cancelled (now : ℤ) (h : JobHash) : JobHash :=
  { h with state := some .cancelled, cancelledAt := some now }

theorem cancelled_life (now : ℤ) {x : JobHash} {l : Life WorkerId} (hl : x.life = some l) :
    (x.cancelled now).life = some (l.next .cancel) := by
  obtain ⟨st, hst, rfl⟩ := Option.map_eq_some_iff.mp hl
  rfl

/-- A cancellation goes through, and says whether the job was waiting. -/
theorem Shows.cancel (h : Shows s c) (id : JobId) (now : ℤ) :
    (fnCancel s id now).2 = some (decide ((c.lives id).map (·.phase) = some .waiting)) ∧
      Shows (fnCancel s id now).1 ((Ask.cancel id).step c) := by
  obtain ⟨A, hA⟩ := h.refines
  refine ⟨by rw [(fnCancel_hash hA id now id).2, h.waits], ?_⟩
  refine h.turned (.cancel id now) trivial (fnCancel_idgen s id now) (p := fun j => j = id ∧ s.waits id)
    (g := JobHash.cancelled now) (fun j => ?_) (fun x => ⟨rfl, rfl⟩) (fun j => ?_)
  · refine (fnCancel_hash hA id now j).1.trans ?_
    split
    · next hj =>
      rw [hj.1]
      rfl
    · rfl
  · rw [alter, h.life]
    refine turn_life (fun l hl => cancelled_life now hl) (fun hin => ?_) (fun l hl => ?_)
    · obtain ⟨rfl, hw⟩ := hin
      rcases (waits_iff s j).mp hw with hst | hst
      · rw [life_of_state hst]
        rfl
      · rw [life_of_state hst]
        rfl
    · rw [Bool.and_eq_true, decide_eq_true_iff, decide_eq_true_iff]
      constructor
      · rintro ⟨rfl, hp⟩
        exact ⟨rfl, (waits_iff s j).mpr ((waits_lifeIn hl).mp hp)⟩
      · rintro ⟨rfl, hw⟩
        exact ⟨rfl, (waits_lifeIn hl).mpr ((waits_iff s j).mp hw)⟩

theorem Shows.promote (h : Shows s c) (now : ℤ) (n : Nat) : Shows (fnPromoteDelayed s now n).1 c := by
  obtain ⟨A, hA⟩ := h.refines
  refine h.turned (.promoteDelayed now n) trivial (forEachCount_idgen s (fun s id => promoteOne_idgen s id now) _ _)
    (p := (· ∈ s.dueIds now n)) (g := fun x => { x with state := some .pending })
    (fun id => fnPromoteDelayed_hash hA now n id) (fun x => ⟨rfl, rfl⟩) (fun id => ?_)
  rw [← fnPromoteDelayed_hash hA, ← h.lives, ← fnPromoteDelayed_life hA now n]
  rfl

/-- The event of a failure, when the retry time is not before the epoch. -/
theorem failure_event (now : ℤ) (error : String) {retryAt : Option ℤ} (ht : ∀ t, retryAt = some t → 0 ≤ t) :
    (Verdict.fail now error (retryAtMs retryAt)).event = failure retryAt := by
  cases retryAt with
  | none => rfl
  | some t => exact if_pos (ht t rfl)

/-- **The backend runs the life cycle.** -/
theorem Does.shows {a : Ask} (h : Shows s c) (hd : Does text s a s') (hl : a.Held c.lives) (ho : a.Ordinary)
    (hf : a.Fits) : Shows s' (a.step c) := by
  cases hd with
  | enqueue r now => exact h.enqueue ho now
  | claim a hids => exact h.claim a hids
  | complete id w result now => exact h.verdict hl (.complete now ((result.map text).getD ""))
  | fail id w error retryAt now =>
    have hs := h.verdict hl (.fail now (text error) (retryAtMs retryAt))
    rw [failure_event now (text error) hf] at hs
    exact hs
  | sweep t n hids => exact h.sweep t n hids
  | reclaim ids now => exact h.reclaim ids now
  | cancel id now => exact (h.cancel id now).2
  | promote now n => exact h.promote now n

theorem Shows.empty : Shows Store.empty {} :=
  ⟨⟨{}, empty_refines⟩, fun _ => ⟨rfl, rfl⟩, rfl, rfl⟩

end Shows

end Eddyq.Redis
