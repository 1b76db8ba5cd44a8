import Eddyq.Redis.Lives
import Mathlib.Data.Finset.Card

/-!
# Announcements on Redis

The functions that give a job to the fetchers publish on the wakeup channel: `Op.announces` is what a call publishes. A job
that becomes pending is announced by the call that makes it so, by its id or in a count, and nothing else is announced by id
(`Announced`). Hence whoever waits in a reached store has been announced since it began to wait (`reached_announced`).
-/

namespace Eddyq.Redis

open Eddyq.Lib

/-! ## What is published -/

/-- A message on the wakeup channel: the id of a job, or how many a call has moved. -/
inductive Announcement
  | job (id : JobId)
  | count (n : ℕ)
  deriving DecidableEq

/-- The messages of a loop. -/
def forEachMsgs (f : Store → JobId → Store × Bool) (msgs : Store → JobId → List Announcement) : List JobId → Store →
    List Announcement
  | [], _ => []
  | i :: is, s => msgs s i ++ if (f s i).2 then forEachMsgs f msgs is (f s i).1 else []

/-- `if count > 0`; a script error comes before the message. -/
def countMsgs : Option ℕ → List Announcement
  | some (n + 1) => [.count (n + 1)]
  | _ => []

def fnEnqueueMsgs (s : Store) (a : EnqueueArgs) (now : ℤ) : List Announcement :=
  if a.effectiveScheduled now ≤ now then (fnEnqueue s a now).2.toList.map .job else []

def fnEnqueueManyMsgs (s : Store) : List EnqueueArgs → ℤ → List Announcement
  | [], _ => []
  | a :: as, now => fnEnqueueMsgs s a now ++ fnEnqueueManyMsgs (fnEnqueue s a now).1 as now

def fnFailMsgs (s : Store) (id : JobId) (worker : WorkerId) (now retryAt : ℤ) : List Announcement :=
  if (s.hash id).lockedBy ≠ some worker then []
  else if 0 ≤ retryAt ∧ retryAt ≤ now ∧ (s.hash id).queue.isSome then [.job id] else []

/-- A swept job whose stall budget is not spent. -/
def sweepOneMsgs (s : Store) (id : JobId) : List Announcement :=
  if (s.hash id).stalledOut ∨ (s.hash id).queue = none then [] else [.job id]

def fnSweepStaleMsgs (s : Store) (staleBefore : ℤ) (batchMax : Nat) : List Announcement :=
  forEachMsgs (recoverOne staleBefore sweepError) sweepOneMsgs (s.staleIds staleBefore batchMax) s

/-- The messages of a call. -/
def Op.announces (s : Store) : Op → List Announcement
  | .enqueue a now => fnEnqueueMsgs s a now
  | .enqueueMany as now => fnEnqueueManyMsgs s as now
  | .fail id w now _ retryAt => fnFailMsgs s id w now retryAt
  | .sweepStale t n => fnSweepStaleMsgs s t n
  | .promoteDelayed now n => countMsgs (fnPromoteDelayed s now n).2
  | .reclaimInFlight now ids => countMsgs (fnReclaimInFlight s now ids).2
  | .scheduleFire a => (fnScheduleFire s a).2.toList.map .job
  | _ => []

/-- **What the messages of a call tell**: who begins to wait is announced; an id stands for a job that begins to wait, once;
and a count is how many jobs change their state. -/
structure Announced (s s' : Store) (msgs : List Announcement) : Prop where
  told : ∀ id, s.state id ≠ some .pending → s'.state id = some .pending → .job id ∈ msgs ∨ ∃ n, .count n ∈ msgs
  job : ∀ id, .job id ∈ msgs → s.state id ≠ some .pending ∧ s'.state id = some .pending
  count : ∀ n, .count n ∈ msgs → 0 < n ∧ ∃ moved : Finset JobId, moved.card = n ∧ ∀ id, id ∈ moved ↔ s'.state id ≠ s.state id
  once : msgs.Nodup

/-! ## Loops -/

section Loops

/-- The count of a loop whose body rewrites its own component and is not hit twice. -/
theorem forEachCount_card {σ ι γ : Type*} [DecidableEq ι] {f : σ → ι → σ × Bool} {b : σ → ι → Bool} {c : σ → ι → γ} {g : γ → γ}
    {Q : γ → Prop} {p : γ → Bool} (hown : ∀ s i, Q (c s i) → c (f s i).1 i = g (c s i) ∧ (f s i).2 = true)
    (hloc : ∀ s i j, j ≠ i → c (f s i).1 j = c s j) (hQ : ∀ x, Q x → Q (g x)) (hhit : ∀ s i, b s i = p (c s i)) :
    ∀ {l : List ι} {s : σ} (n : ℕ), (l.Nodup ∨ ∀ x, p (g x) = false) → (∀ i ∈ l, Q (c s i)) →
      (forEach (fun (x : σ × Nat) i => (((f x.1 i).1, if b x.1 i then x.2 + 1 else x.2), (f x.1 i).2)) l (s, n)) =
        (((forEach f l s).1, n + (l.toFinset.filter fun i => p (c s i)).card), true)
  | [], s, n, _, _ => by simp [forEach]
  | i :: is, s, n, hl, hq => by
    obtain ⟨hi, hgo⟩ := hown s i (hq i List.mem_cons_self)
    have hrest : ∀ k ∈ is, Q (c (f s i).1 k) := by
      intro k hk
      by_cases hki : k = i
      · subst hki
        rw [hi]
        exact hQ _ (hq k List.mem_cons_self)
      · rw [hloc s i k hki]
        exact hq k (List.mem_cons_of_mem _ hk)
    have hl' : is.Nodup ∨ ∀ x, p (g x) = false := hl.imp (fun hn => (List.nodup_cons.mp hn).2) (fun h => h)
    -- the index does not count again
    have hgone : i ∉ is.toFinset.filter fun k => p (c (f s i).1 k) := by
      intro hm
      obtain ⟨hin, hp⟩ := Finset.mem_filter.mp hm
      rcases hl with hn | hg
      · exact (List.nodup_cons.mp hn).1 (List.mem_toFinset.mp hin)
      · rw [hi, hg] at hp
        cases hp
    have hsame : ∀ k, k ≠ i → p (c (f s i).1 k) = p (c s k) := fun k hk => by rw [hloc s i k hk]
    have hcard : n + ((i :: is).toFinset.filter fun k => p (c s k)).card =
        (if p (c s i) then n + 1 else n) + (is.toFinset.filter fun k => p (c (f s i).1 k)).card := by
      by_cases hp : p (c s i) = true
      · have hset : ((i :: is).toFinset.filter fun k => p (c s k)) = insert i (is.toFinset.filter fun k => p (c (f s i).1 k)) := by
          ext k
          by_cases hk : k = i
          · subst hk
            simp [hp]
          · simp [hk, hsame k hk]
        rw [hset, Finset.card_insert_of_notMem hgone, if_pos hp]
        omega
      · have hset : ((i :: is).toFinset.filter fun k => p (c s k)) = is.toFinset.filter fun k => p (c (f s i).1 k) := by
          ext k
          by_cases hk : k = i
          · subst hk
            simpa [hp] using hgone
          · simp [hk, hsame k hk]
        rw [hset, if_neg hp]
    rw [forEach, if_pos hgo, forEachCount_card hown hloc hQ hhit _ hl' hrest, forEach, if_pos hgo, hhit, hcard]

/-- The messages of a loop that never stops and looks at the component of its index. -/
theorem mem_forEachMsgs {f : Store → JobId → Store × Bool} {msgs : Store → JobId → List Announcement} {Q : JobHash → Prop}
    (hgo : ∀ s i, Q (s.hash i) → (f s i).2 = true) (hloc : ∀ s i j, j ≠ i → (f s i).1.hash j = s.hash j)
    (hmsgs : ∀ s s' i, s.hash i = s'.hash i → msgs s i = msgs s' i) :
    ∀ {l : List JobId} {s : Store}, l.Nodup → (∀ i ∈ l, Q (s.hash i)) → forEachMsgs f msgs l s = l.flatMap (msgs s)
  | [], _, _, _ => rfl
  | i :: is, s, hnd, hq => by
    have hne : ∀ j ∈ is, j ≠ i := fun j hj e => (List.nodup_cons.mp hnd).1 (e ▸ hj)
    have hrest : ∀ j ∈ is, Q ((f s i).1.hash j) := by
      intro j hj
      rw [hloc s i j (hne j hj)]
      exact hq j (List.mem_cons_of_mem _ hj)
    rw [forEachMsgs, if_pos (hgo s i (hq i List.mem_cons_self)),
      mem_forEachMsgs hgo hloc hmsgs (List.nodup_cons.mp hnd).2 hrest, List.flatMap_cons]
    congr 1
    exact List.flatMap_congr fun j hj => hmsgs _ _ j (hloc s i j (hne j hj))

end Loops

/-! ## The calls -/

section Calls

variable {s s₁ s' : Store} {A : Line} {id : JobId}

/-- Nobody begins to wait. -/
theorem Announced.idle (h : ∀ id, s'.state id = some .pending → s.state id = some .pending) : Announced s s' [] where
  told id hno hp := absurd (h id hp) hno
  job _ hm := absurd hm List.not_mem_nil
  count _ hm := absurd hm List.not_mem_nil
  once := List.nodup_nil

theorem Announced.of_hash (h : s'.hash = s.hash) : Announced s s' [] :=
  .idle fun id hp => by
    rw [Store.state, h] at hp
    exact hp

theorem Announced.of_kept (h : HashesKept s s') : Announced s s' [] := by
  refine .idle fun id hp => ?_
  rcases h id with h | h
  · rw [Store.state, Store.hash, h] at hp
    exact hp
  · rw [Store.state, Store.hash, h] at hp
    cases hp

/-- Only new jobs are announced, those that wait. -/
structure AnnouncedNew (s s' : Store) (msgs : List Announcement) : Prop where
  next : s.idgen ≤ s'.idgen
  old : ∀ id, id ≤ s.idgen → s'.hash id = s.hash id
  job : ∀ id, .job id ∈ msgs ↔ s.idgen < id ∧ s'.state id = some .pending
  count : ∀ n, .count n ∉ msgs
  once : msgs.Nodup

theorem AnnouncedNew.announced {msgs : List Announcement} (h : AnnouncedNew s s' msgs) (hr : Refines False s A) :
    Announced s s' msgs where
  told id hno hp := by
    by_cases hid : id ≤ s.idgen
    · rw [Store.state, h.old id hid] at hp
      exact absurd hp hno
    · exact .inl ((h.job id).mpr ⟨not_le.mp hid, hp⟩)
  job id hm := by
    obtain ⟨hid, hp⟩ := (h.job id).mp hm
    refine ⟨?_, hp⟩
    rw [Store.state, hr.hash_fresh hid]
    rintro ⟨⟩
  count n hm := absurd hm (h.count n)
  once := h.once

/-- Nothing is inserted. -/
theorem AnnouncedNew.none (hr : Refines False s A) : AnnouncedNew s s [] := by
  refine ⟨le_refl _, fun _ _ => rfl, fun id => ⟨fun hm => absurd hm List.not_mem_nil, ?_⟩, fun _ => List.not_mem_nil, List.nodup_nil⟩
  rintro ⟨hid, hp⟩
  rw [Store.state, hr.hash_fresh hid] at hp
  cases hp

/-- One job is inserted. -/
theorem AnnouncedNew.insert (hr : Refines False s A) {h : JobHash}
    (hhash : ∀ j, s'.hash j = if j = s.idgen + 1 then h else s.hash j) (hidgen : s'.idgen = s.idgen + 1) :
    AnnouncedNew s s' (if h.state = some .pending then [.job (s.idgen + 1)] else []) := by
  have hold : ∀ id, id ≤ s.idgen → s'.hash id = s.hash id := by
    intro id hid
    have hne : id ≠ s.idgen + 1 := by omega
    rw [hhash, if_neg hne]
  refine ⟨by omega, hold, fun id => ?_, fun n => ?_, ?_⟩
  · have hstate : s.idgen < id → (s'.state id = some .pending ↔ id = s.idgen + 1 ∧ h.state = some .pending) := by
      intro hid
      rw [Store.state, hhash]
      by_cases he : id = s.idgen + 1
      · simp [he]
      · rw [if_neg he, hr.hash_fresh hid]
        simp [he]
    constructor
    · intro hm
      split at hm
      · next hp =>
        cases List.mem_singleton.mp hm
        exact ⟨Nat.lt_succ_self _, (hstate (Nat.lt_succ_self _)).mpr ⟨rfl, hp⟩⟩
      · exact absurd hm List.not_mem_nil
    · rintro ⟨hid, hp⟩
      obtain ⟨rfl, hst⟩ := (hstate hid).mp hp
      rw [if_pos hst]
      exact List.mem_singleton_self _
  · split <;> simp
  · split <;> simp

/-- One insertion after the other. -/
theorem AnnouncedNew.trans {m₁ m₂ : List Announcement} {A₁ : Line} (h₁ : AnnouncedNew s s₁ m₁) (h₂ : AnnouncedNew s₁ s' m₂)
    (hr : Refines False s₁ A₁) : AnnouncedNew s s' (m₁ ++ m₂) := by
  have hknown : ∀ id, s₁.state id = some .pending → id ≤ s₁.idgen := by
    intro id hp
    by_contra hid
    rw [Store.state, hr.hash_fresh (not_le.mp hid)] at hp
    cases hp
  refine ⟨h₁.next.trans h₂.next, fun id hid => ?_, fun id => ?_, fun n hm => ?_, ?_⟩
  · rw [h₂.old id (hid.trans h₁.next), h₁.old id hid]
  · rw [List.mem_append, h₁.job, h₂.job]
    constructor
    · rintro (⟨hid, hp⟩ | ⟨hid, hp⟩)
      · rw [Store.state, h₂.old id (hknown id hp)]
        exact ⟨hid, hp⟩
      · exact ⟨h₁.next.trans_lt hid, hp⟩
    · rintro ⟨hid, hp⟩
      by_cases hle : id ≤ s₁.idgen
      · rw [Store.state, h₂.old id hle] at hp
        exact .inl ⟨hid, hp⟩
      · exact .inr ⟨not_le.mp hle, hp⟩
  · rcases List.mem_append.mp hm with hm | hm
    · exact h₁.count n hm
    · exact h₂.count n hm
  · refine List.nodup_append.mpr ⟨h₁.once, h₂.once, ?_⟩
    rintro a ha b hb rfl
    cases a with
    | count n => exact h₁.count n ha
    | job id => exact absurd (hknown id ((h₁.job id).mp ha).2) (not_le.mpr ((h₂.job id).mp hb).1)

theorem toHash_state (a : EnqueueArgs) (id : JobId) (now : ℤ) (h : JobHash) :
    (a.toHash id now h).state = some .pending ↔ a.effectiveScheduled now ≤ now := by
  unfold EnqueueArgs.toHash
  by_cases hdue : a.effectiveScheduled now ≤ now
  · simp [hdue]
  · simp [hdue]

theorem fnEnqueue_announced (hr : Refines False s A) (a : EnqueueArgs) (now : ℤ) :
    AnnouncedNew s (fnEnqueue s a now).1 (fnEnqueueMsgs s a now) := by
  unfold fnEnqueueMsgs fnEnqueue
  split
  · have hnil : (if a.effectiveScheduled now ≤ now then (none : Option JobId).toList.map Announcement.job else []) = [] := by
      split <;> rfl
    rw [hnil]
    exact .none hr
  · dsimp only
    generalize hs₁ : (if a.uniqueKey ≠ "" then ({ s with idgen := s.idgen + 1 } : Store).setUnique a.uniqueKey (s.idgen + 1)
      else { s with idgen := s.idgen + 1 }) = s₁
    have hcell : s₁.cell = s.cell := by
      subst hs₁
      split <;> rfl
    have hidgen : (insertJob s₁ a (s.idgen + 1) now).idgen = s.idgen + 1 := by
      rw [insertJob_idgen]
      subst hs₁
      split <;> rfl
    have hnew := AnnouncedNew.insert hr (insertJob_next hr hcell a now) hidgen
    simp only [toHash_state] at hnew
    exact hnew

theorem fnEnqueueMany_announced (now : ℤ) : ∀ (as : List EnqueueArgs) {s : Store} {A : Line}, Refines False s A →
    AnnouncedNew s (fnEnqueueMany s as now).1 (fnEnqueueManyMsgs s as now)
  | [], _, _, hr => .none hr
  | a :: as, s, A, hr => by
    obtain ⟨A', _, hr'⟩ := fnEnqueue_sim hr a now nofun
    exact (fnEnqueue_announced hr a now).trans (fnEnqueueMany_announced now as hr') hr'

theorem fnScheduleFire_announced (hr : Refines False s A) (a : FireArgs) :
    AnnouncedNew s (fnScheduleFire s a).1 ((fnScheduleFire s a).2.toList.map .job) := by
  cases hsch : s.schedule? a.name with
  | none =>
    have hgone : fnScheduleFire s a = (s, none) := by
      unfold fnScheduleFire
      rw [hsch]
    rw [hgone]
    exact .none hr
  | some e =>
    have hreply : (fnScheduleFire s a).2 = some (s.idgen + 1) := by
      unfold fnScheduleFire
      rw [hsch]
    have hsame : SameJobs (insertJob { s with idgen := s.idgen + 1 } a.toEnqueue (s.idgen + 1) a.now) (fnScheduleFire s a).1 := by
      obtain ⟨hcell, hid, hunique⟩ := setSchedule_sameJobs
        (insertJob { s with idgen := s.idgen + 1 } a.toEnqueue (s.idgen + 1) a.now) a.name
        { e with lastRunAtMs := a.now, nextRunAtMs := a.nextRun }
      unfold fnScheduleFire
      rw [hsch]
      exact ⟨hcell, hid, hunique⟩
    have hcell : ({ s with idgen := s.idgen + 1 } : Store).cell = s.cell := rfl
    have hnew := AnnouncedNew.insert hr
      (fun j => (congrFun hsame.hash j).trans (insertJob_next hr hcell a.toEnqueue a.now j))
      (hsame.2.1.trans (insertJob_idgen _ _ _ _))
    have hdue : a.toEnqueue.effectiveScheduled a.now ≤ a.now := le_refl _
    rw [if_pos ((toHash_state _ _ _ _).mpr hdue)] at hnew
    rw [hreply]
    exact hnew

/-- A failure with a retry time that has come. -/
theorem fnFail_announced (hr : Refines False s A) {w : WorkerId} (hok : s.VerdictOk id w) (now : ℤ) (error : String) (retryAt : ℤ) :
    Announced s (fnFail s id w now error retryAt).1 (fnFailMsgs s id w now retryAt) := by
  unfold fnFailMsgs
  by_cases hown : (s.hash id).lockedBy = some w
  swap
  · have hsame : (fnFail s id w now error retryAt).1 = s := by
      unfold fnFail
      rw [if_pos hown]
    rw [if_pos hown, hsame]
    exact .of_hash rfl
  have hrun : s.state id = some .running := hok hown
  rw [if_neg (not_not.mpr hown)]
  by_cases hnow : 0 ≤ retryAt ∧ retryAt ≤ now ∧ (s.hash id).queue.isSome
  · obtain ⟨hge, hle, hq⟩ := hnow
    rw [if_pos ⟨hge, hle, hq⟩]
    have hhash : ∀ j, (fnFail s id w now error retryAt).1.hash j =
        if j = id then { s.hash id with state := some .pending, failedAt := some now } else s.hash j := by
      intro j
      obtain ⟨q, hq⟩ := Option.isSome_iff_exists.mp hq
      have hq' : ((s.pushError id error).hash id).queue = some q := hq
      have hleave : (leaveRunning (s.pushError id error) id ((s.pushError id error).hash id).groupKey
          ((s.pushError id error).hash id).queue).hash = s.hash := hash_congr (leaveRunning_job id _ _ _)
      unfold fnFail
      rw [if_neg (not_not.mpr hown), if_pos hge, if_pos hle]
      dsimp only
      split
      · next hnone =>
        rw [hq'] at hnone
        cases hnone
      · rw [zadd_hash, hash_hset, hleave]
    refine ⟨fun j hno hp => ?_, fun j hm => ?_, fun n hm => ?_, List.nodup_singleton _⟩
    · rw [Store.state, hhash] at hp
      split at hp
      · next hj =>
        subst hj
        exact .inl (List.mem_singleton_self _)
      · exact absurd hp hno
    · cases List.mem_singleton.mp hm
      rw [hrun, Store.state, hhash, if_pos rfl]
      exact ⟨by decide, rfl⟩
    · cases List.mem_singleton.mp hm
  · rw [if_neg hnow]
    refine .idle fun j hp => ?_
    rcases (Verdict.fail now error retryAt).writes s id w with ⟨hne, -⟩ | ⟨y, hy, hkept, -⟩
    · exact absurd hown hne
    · have hqueue := hr.queue_isSome hrun
      have hp : (((Verdict.fail now error retryAt).toOp id w).apply s).state j = some .pending := hp
      rcases hkept j with hk | hk
      · rw [Store.state, Store.hash, hk] at hp
        have hp : ((y.hset id (Verdict.fail now error retryAt).mark).hash j).state = some .pending := hp
        rw [hash_hset, hy] at hp
        split at hp
        · exfalso
          unfold Verdict.mark at hp
          dsimp only at hp
          split at hp
          · next hge =>
            split at hp
            · next hle => exact hnow ⟨hge, hle, hqueue⟩
            · cases hp
          · cases hp
        · exact hp
      · rw [Store.state, Store.hash, hk] at hp
        cases hp

/-- A sweep, job by job. -/
theorem fnSweepStale_announced (hr : Refines False s A) (t : ℤ) (n : Nat) :
    Announced s (fnSweepStale s t n).1 (fnSweepStaleMsgs s t n) := by
  have hnd : (s.staleIds t n).Nodup := ZSet.nodup_rangeByScore _ _ _
  have hmsgs : fnSweepStaleMsgs s t n = (s.staleIds t n).flatMap (sweepOneMsgs s) := by
    refine mem_forEachMsgs (Q := fun x => x.queue.isSome) (fun x i hq => recoverOne_goes t sweepError hq) (fun x i j hne => ?_)
      (fun x y i hxy => ?_) hnd fun i hi => hr.queue_isSome (hr.stale_running hi)
    · rw [recoverOne_hash, if_neg hne]
    · unfold sweepOneMsgs
      rw [hxy]
  have hone : ∀ i ∈ s.staleIds t n, sweepOneMsgs s i = if (s.hash i).stalledOut then [] else [.job i] := by
    intro i hi
    have hq : (s.hash i).queue ≠ none := Option.isSome_iff_ne_none.mp (hr.queue_isSome (hr.stale_running hi))
    simp only [sweepOneMsgs, hq, or_false]
  have hstate : ∀ i ∈ s.staleIds t n, (fnSweepStale s t n).1.state i = some .pending ↔ ¬ (s.hash i).stalledOut := by
    intro i hi
    rw [Store.state, fnSweepStale_hash hr, if_pos hi, JobHash.recovered]
    split
    · next hout => simp [hout]
    · next hout => simp [hout]
  have hmem : ∀ i, .job i ∈ fnSweepStaleMsgs s t n ↔ i ∈ s.staleIds t n ∧ ¬ (s.hash i).stalledOut := by
    intro i
    rw [hmsgs, List.mem_flatMap]
    constructor
    · rintro ⟨k, hk, hm⟩
      rw [hone k hk] at hm
      split at hm
      · exact absurd hm List.not_mem_nil
      · next hout =>
        cases List.mem_singleton.mp hm
        exact ⟨hk, hout⟩
    · rintro ⟨hk, hout⟩
      refine ⟨i, hk, ?_⟩
      rw [hone i hk, if_neg hout]
      exact List.mem_singleton_self _
  refine ⟨fun i hno hp => ?_, fun i hm => ?_, fun k hm => ?_, ?_⟩
  · by_cases hi : i ∈ s.staleIds t n
    · exact .inl ((hmem i).mpr ⟨hi, (hstate i hi).mp hp⟩)
    · rw [Store.state, fnSweepStale_hash hr, if_neg hi] at hp
      exact absurd hp hno
  · obtain ⟨hi, hout⟩ := (hmem i).mp hm
    refine ⟨?_, (hstate i hi).mpr hout⟩
    rw [hr.stale_running hi]
    decide
  · rw [hmsgs] at hm
    obtain ⟨i, hi, hm⟩ := List.mem_flatMap.mp hm
    rw [hone i hi] at hm
    split at hm
    · exact absurd hm List.not_mem_nil
    · cases List.mem_singleton.mp hm
  · rw [hmsgs, List.nodup_flatMap]
    refine ⟨fun i hi => ?_, hnd.imp_of_mem fun {i j} hi hj hne => ?_⟩
    · rw [hone i hi]
      split
      · exact List.nodup_nil
      · exact List.nodup_singleton _
    · intro m hm hm'
      rw [hone i hi] at hm
      rw [hone j hj] at hm'
      split at hm
      · exact absurd hm List.not_mem_nil
      split at hm'
      · exact absurd hm' List.not_mem_nil
      rw [List.mem_singleton] at hm hm'
      rw [hm] at hm'
      cases hm'
      exact hne rfl

/-- A call that publishes how many jobs it has moved. -/
theorem Announced.of_count {moved : Finset JobId} (hmoved : ∀ id, id ∈ moved ↔ s'.state id ≠ s.state id) :
    Announced s s' (countMsgs (some moved.card)) := by
  cases hcard : moved.card with
  | zero =>
    refine .idle fun id hp => ?_
    have hid : id ∉ moved := by
      rw [Finset.card_eq_zero.mp hcard]
      exact Finset.notMem_empty _
    rw [hmoved, not_not] at hid
    rw [← hid, hp]
  | succ n =>
    refine ⟨fun id _ _ => .inr ⟨n + 1, List.mem_singleton_self _⟩, fun id hm => ?_, fun k hm => ?_, List.nodup_singleton _⟩
    · cases List.mem_singleton.mp hm
    · cases List.mem_singleton.mp hm
      exact ⟨Nat.succ_pos n, moved, hcard, hmoved⟩

theorem fnPromoteDelayed_announced (hr : Refines False s A) (now : ℤ) (n : Nat) :
    Announced s (fnPromoteDelayed s now n).1 (countMsgs (fnPromoteDelayed s now n).2) := by
  have hcount : (fnPromoteDelayed s now n).2 = some (s.dueIds now n).toFinset.card := by
    have hrun := forEachCount_card (c := Store.hash) (g := fun x => { x with state := some .pending }) (Q := fun x => x.queue.isSome)
      (p := fun _ => true) (f := promoteOne now) (b := fun _ _ => true) (fun x i hq => ⟨?_, ?_⟩) (fun x i k hne => ?_)
      (fun x hq => hq) (fun _ _ => rfl) (l := s.dueIds now n) (s := s) 0 (Or.inl (ZSet.nodup_rangeByScore _ _ _))
      (fun i hi => hr.queue_isSome (hr.due_scheduled hi))
    · rw [fnPromoteDelayed, forEachCount]
      dsimp only
      rw [show (s.zsets .delayed).rangeByScore (fun sc => sc ≤ now) n = s.dueIds now n from rfl, hrun]
      simp
    · rw [promoteOne_hash, if_pos rfl]
    · obtain ⟨q, hq⟩ := Option.isSome_iff_exists.mp hq
      unfold promoteOne
      dsimp only
      rw [hq]
    · rw [promoteOne_hash, if_neg hne]
  rw [hcount]
  refine .of_count fun id => ?_
  rw [List.mem_toFinset, Store.state, Store.state, fnPromoteDelayed_hash hr]
  by_cases hid : id ∈ s.dueIds now n
  · have hst : (s.hash id).state = some .scheduled := hr.due_scheduled hid
    simp [hid, hst]
  · simp [hid]

theorem fnReclaimInFlight_announced (hr : Refines False s A) (now : ℤ) (ids : List JobId) :
    Announced s (fnReclaimInFlight s now ids).1 (countMsgs (fnReclaimInFlight s now ids).2) := by
  have hcount : (fnReclaimInFlight s now ids).2 = some (ids.toFinset.filter fun i => isRunning s i).card := by
    have hrun := forEachCount_card (c := Store.hash) (g := JobHash.reclaimed now) (Q := fun x => x.state = some .running → x.queue.isSome)
      (p := fun x => decide (x.state = some .running)) (f := reclaimOne now) (b := isRunning) (fun x i hq => ?_) (fun x i k hne => ?_)
      (fun x hq hrun => ?_) (fun _ _ => rfl) (l := ids) (s := s) 0 (Or.inr fun x => ?_) (fun i _ hst => hr.queue_isSome hst)
    · rw [fnReclaimInFlight, forEachCount]
      dsimp only
      rw [hrun]
      simp [isRunning]
    · unfold reclaimOne JobHash.reclaimed
      by_cases hst : (x.hash i).state = some .running
      · have hrun : isRunning x i = true := decide_eq_true hst
        rw [if_pos hrun, if_pos hst, recoverOne_hash, if_pos rfl]
        exact ⟨rfl, recoverOne_goes now reclaimError (hq hst)⟩
      · have hidle : ¬ isRunning x i = true := fun hd => hst (of_decide_eq_true hd)
        rw [if_neg hidle, if_neg hst]
        exact ⟨rfl, rfl⟩
    · unfold reclaimOne
      split
      · rw [recoverOne_hash, if_neg hne]
      · rfl
    · unfold JobHash.reclaimed at hrun
      split at hrun
      · exact absurd hrun (recovered_state now x)
      · next hno => exact absurd hrun hno
    · unfold JobHash.reclaimed
      split
      · exact decide_eq_false (recovered_state now x)
      · next hno => exact decide_eq_false hno
  rw [hcount]
  refine .of_count fun id => ?_
  rw [Finset.mem_filter, List.mem_toFinset, Store.state, Store.state, fnReclaimInFlight_hash hr, JobHash.reclaimed, isRunning]
  by_cases hid : id ∈ ids
  · by_cases hst : (s.hash id).state = some .running
    · have hne := recovered_state now (s.hash id)
      simp [hid, hst, hne]
    · simp [hid, hst]
  · simp [hid]

theorem fnHeartbeat_state (s : Store) (now : ℤ) (ids : List JobId) (id : JobId) :
    (fnHeartbeat s now ids).1.state id = s.state id := by
  rw [fnHeartbeat, forEachCount_fst]
  refine forEach_inv (P := fun x : Store => x.state id = s.state id) rfl (fun x i _ hx => ?_)
  unfold heartbeatOne
  split
  · rw [← hx, Store.state, zadd_hash, hash_hset, Store.state]
    split
    · next hj => rw [hj]
    · rfl
  · exact hx

/-- **Every call** announces who begins to wait. -/
theorem Op.announced (hr : Refines False s A) (op : Op) (hok : op.Ok False s) : Announced s (op.apply s) (op.announces s) := by
  cases op with
  | enqueue a now => exact (fnEnqueue_announced hr a now).announced hr
  | enqueueMany as now => exact (fnEnqueueMany_announced now as hr).announced hr
  | claim a =>
    refine .idle fun id hp => ?_
    have h := fnClaim_replied s a
    by_cases hid : id ∈ (fnClaim s a).2.map (·.id)
    · obtain ⟨j, hj, rfl⟩ := List.mem_map.mp hid
      exact (h.handed j hj).1
    · rw [Store.state, ← h.rest id hid]
      exact hp
  | heartbeat now ids => exact .idle fun id hp => (fnHeartbeat_state s now ids id) ▸ hp
  | complete id w now result =>
    rcases (Verdict.complete now result).writes s id w with ⟨-, hsame⟩ | ⟨y, hy, hkept, -⟩
    · have hsame : (fnComplete s id w now result).1 = s := hsame
      refine .of_hash ?_
      rw [Op.apply, hsame]
    · refine .idle fun j hp => ?_
      have hp : (((Verdict.complete now result).toOp id w).apply s).state j = some .pending := hp
      rcases hkept j with hk | hk
      · rw [Store.state, Store.hash, hk] at hp
        have hp : ((y.hset id (Verdict.complete now result).mark).hash j).state = some .pending := hp
        rw [hash_hset, hy] at hp
        split at hp
        · cases hp
        · exact hp
      · rw [Store.state, Store.hash, hk] at hp
        cases hp
  | fail id w now error retryAt => exact fnFail_announced hr hok now error retryAt
  | sweepStale t n => exact fnSweepStale_announced hr t n
  | promoteDelayed now n => exact fnPromoteDelayed_announced hr now n
  | reclaimInFlight now ids => exact fnReclaimInFlight_announced hr now ids
  | cancel i now =>
    refine .idle fun j hp => ?_
    rw [Store.state, Op.apply, (fnCancel_hash hr i now j).1] at hp
    split at hp
    · cases hp
    · exact hp
  | cleanup a => exact .of_kept (fnCleanup_hashesKept s a)
  | scheduleFire a => exact (fnScheduleFire_announced hr a).announced hr
  | _ => exact .of_hash (Op.apply_sameJobs s _ rfl).hash

end Calls

/-! ## Runs -/

/-- The message reaches whoever waits for the job. -/
def Covers (msgs : List Announcement) (id : JobId) : Prop := .job id ∈ msgs ∨ ∃ n, .count n ∈ msgs

/-- The call that made the job wait announced it, and it has been waiting ever since. -/
structure AnnouncedAt (ops : List Op) (id : JobId) (before : List Op) (op : Op) (after : List Op) : Prop where
  split : ops = before ++ op :: after
  covers : Covers (op.announces (before.foldl Op.apply Store.empty)) id
  waits : ∀ k, ((before ++ op :: after.take k).foldl Op.apply Store.empty).state id = some .pending

theorem foldl_of_run {ok : Store → Op → Prop} {s₀ s : Store} {ops : List Op} (h : Run (Guarded ok Op.apply) s₀ ops s) :
    ops.foldl Op.apply s₀ = s := by
  induction h with
  | nil => rfl
  | snoc a _ hs ih => rw [List.foldl_append, ih, hs.2, List.foldl_cons, List.foldl_nil]

/-- One more call that leaves the job waiting. -/
theorem AnnouncedAt.snoc {ops before after : List Op} {op o : Op} {id : JobId} (h : AnnouncedAt ops id before op after)
    (hp : ((ops ++ [o]).foldl Op.apply Store.empty).state id = some .pending) :
    AnnouncedAt (ops ++ [o]) id before op (after ++ [o]) := by
  refine ⟨by rw [h.split, List.append_assoc, List.cons_append], h.covers, fun k => ?_⟩
  by_cases hk : k ≤ after.length
  · rw [List.take_append_of_le_length hk]
    exact h.waits k
  · have hall : (after ++ [o]).take k = after ++ [o] := by
      apply List.take_of_length_le
      rw [List.length_append, List.length_singleton]
      omega
    rw [hall]
    rw [h.split, List.append_assoc, List.cons_append] at hp
    exact hp

/-- **Announcements over runs**: in every reached store each call announces exactly who begins to wait, and whoever waits was
announced by the call since which it has been waiting. -/
theorem reached_announced {s : Store} {ops : List Op} (h : Run (Guarded (Op.Ok False) Op.apply) Store.empty ops s) :
    (∀ op : Op, op.Ok False s → Announced s (op.apply s) (op.announces s)) ∧
    ∀ id, s.state id = some .pending → ∃ before op after, AnnouncedAt ops id before op after := by
  have hsim : ∀ {s : Store} {ops : List Op}, Run (Guarded (Op.Ok False) Op.apply) Store.empty ops s → ∃ A, Refines False s A :=
    fun hrun => by
      obtain ⟨A, -, hr⟩ := reached_sim ⟨_, hrun⟩
      exact ⟨A, hr⟩
  refine ⟨fun op hok => ?_, ?_⟩
  · obtain ⟨A, hr⟩ := hsim h
    exact op.announced hr hok
  · induction h with
    | nil =>
      intro id hp
      cases hp
    | @snoc ops s s' op hrun hs ih =>
      intro id hp
      obtain ⟨hok, rfl⟩ := hs
      have hfold := foldl_of_run hrun
      have hfold' : (ops ++ [op]).foldl Op.apply Store.empty = op.apply s := by
        rw [List.foldl_append, hfold, List.foldl_cons, List.foldl_nil]
      by_cases hwas : s.state id = some .pending
      · obtain ⟨before, o, after, hat⟩ := ih id hwas
        exact ⟨before, o, after ++ [op], hat.snoc (hfold' ▸ hp)⟩
      · obtain ⟨A, hr⟩ := hsim hrun
        refine ⟨ops, op, [], rfl, ?_, fun k => ?_⟩
        · rw [hfold]
          exact (op.announced hr hok).told id hwas hp
        · rw [List.take_nil, hfold']
          exact hp

/-- A job that is due at once. -/
def firstEnqueue : Op := .enqueue { kind := "email", queue := "default" } 5

theorem reached_announced_first : ∃ before op after, AnnouncedAt [firstEnqueue] 1 before op after := by
  have hrun : Run (Guarded (Op.Ok False) Op.apply) Store.empty ([] ++ [firstEnqueue]) (firstEnqueue.apply Store.empty) :=
    Run.nil.snoc _ ⟨False.elim, rfl⟩
  exact (reached_announced hrun).2 1 (by decide)

end Eddyq.Redis
