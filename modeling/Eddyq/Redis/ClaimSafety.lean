import Eddyq.Redis.Gates
import Eddyq.Redis.Leases

/-!
# What a claim may start

`Claiming a s₀ s out` is what holds in the middle of a claim that began in the store `s₀`: the jobs of `out` were pending
on a listed queue and run now, no other job has been touched, and no cap, pause or rate limit has been passed. One
candidate keeps it (`Scanning.entry`), so do the pages of a queue and all queues, however the scan moves over the set it
takes jobs from. `claim_safe` is the result for whole calls.
-/

namespace Eddyq.Redis

open Eddyq.Lib

/-- The job is pending on the queue: so says its HASH, and it is in the wait set. -/
structure Store.PendingOn (s : Store) (id : JobId) (q : String) : Prop where
  state : s.state id = some .pending
  queue : (s.hash id).queue.getD "" = q
  waits : id ∈ (s.zsets (.wait q)).members

/-- What a claim guarantees. -/
structure ClaimSafe (a : ClaimArgs) (s s' : Store) (out : List ClaimedJob) : Prop where
  size : out.length ≤ a.batchSize
  distinct : (out.map (·.id)).Nodup
  taken : ∀ j ∈ out, s'.state j.id = some .running ∧ (∃ q ∈ a.queues, s.PendingOn j.id q) ∧
    (s.hash j.id).kind = some j.kind ∧ j.kind ∈ a.kinds ∧ j.groupKey = given (s.hash j.id).groupKey
  rest : ∀ id, id ∉ out.map (·.id) → s'.cell id = s.cell id
  queuePaused : ∀ q m, readNqMeta s q = some m → m.paused → s'.zsets (.nqrun q) = s.zsets (.nqrun q)
  groupPaused : ∀ g m, readGroupMeta s g = some m → m.paused → s'.zsets (.grouprun g) = s.zsets (.grouprun g)
  queueCap : ∀ q m, readNqMeta s q = some m → 0 ≤ m.maxConcurrency →
    ((s'.zsets (.nqrun q)).card : ℤ) ≤ max m.maxConcurrency (s.zsets (.nqrun q)).card
  groupCap : ∀ g m, readGroupMeta s g = some m → 0 ≤ m.maxConcurrency →
    ((s'.zsets (.grouprun g)).card : ℤ) ≤ max m.maxConcurrency (s.zsets (.grouprun g)).card
  /-- Every job started in a rate-limited group has taken one token out of those available at the time of the call. -/
  tokens : ∀ g m, readGroupMeta s g = some m → 0 ≤ m.rateCount → 0 < out.countP (·.groupKey = some g) →
    (out.countP (·.groupKey = some g) : ℚ) ≤ (refillTokens m a.now).tokens ∧ ∃ m', readGroupMeta s' g = some m' ∧
      m'.tokens = (refillTokens m a.now).tokens - out.countP (·.groupKey = some g)

/-! ## Candidates in a consistent store -/

section Consistent

variable {s : Store} {id : JobId} {q q' : String}

theorem wait_mem_homeKeys {st : JobState} {g : String} : ZKey.wait q ∈ homeKeys st q' g ↔ st = .pending ∧ q = q' := by
  cases st with
  | running => by_cases hg : g = "" <;> simp [homeKeys, hg]
  | _ => simp [homeKeys]

theorem Store.Consistent.pendingOn (hs : s.Consistent) (h : (s.zscore (.wait q) id).isSome) : s.PendingOn id q := by
  have hm : id ∈ (s.zsets (.wait q)).members := ZSet.mem_members.mpr h
  obtain ⟨x, hx⟩ := Option.isSome_iff_exists.mp (hs.hashed id _ hm)
  have hk := (hs.prescribed id x hx _).mp hm
  have hhash : s.hash id = x := by rw [Store.hash, hx]; rfl
  unfold JobHash.prescribed at hk
  split at hk
  · next st hst =>
    obtain ⟨rfl, rfl⟩ := wait_mem_homeKeys.mp hk
    exact ⟨by rw [Store.state, hhash]; exact hst, by rw [hhash], hm⟩
  · exact absurd hk List.not_mem_nil

/-- A job waits on one queue only. -/
theorem Store.Consistent.one_queue (hs : s.Consistent) (h : s.PendingOn id q) (h' : q' ≠ q) :
    s.zscore (.wait q') id = none := by
  by_contra hne
  have hp := hs.pendingOn (Option.isSome_iff_ne_none.mpr hne)
  exact h' (hp.queue.symm.trans h.queue)

end Consistent

/-! ## What a start writes -/

section Start

variable (s : Store) (a : ClaimArgs) (queue : String) (id : JobId) (n : ℤ) (g : Option String)

theorem startJob_cell_ne {j : JobId} (h : j ≠ id) : (startJob s a queue id n g).cell j = s.cell j := by
  unfold startJob
  cases g <;> simp [h]

theorem startJob_wait (q : String) : (startJob s a queue id n g).zscore (.wait q) id =
    if q = queue then none else s.zscore (.wait q) id := by
  unfold startJob
  cases g <;> by_cases hq : q = queue <;> simp [Store.zscore, Store.zadd, Store.zrem, Store.hset, hq]

theorem startJob_nqrun (q : String) : (startJob s a queue id n g).zsets (.nqrun q) =
    if q = queue then (s.zsets (.nqrun q)).add a.now id else s.zsets (.nqrun q) := by
  unfold startJob
  cases g <;> by_cases hq : q = queue <;> simp [Store.zadd, Store.zrem, Store.hset, hq]

theorem startJob_grouprun (x : String) : (startJob s a queue id n g).zsets (.grouprun x) =
    if g = some x then (s.zsets (.grouprun x)).add a.now id else s.zsets (.grouprun x) := by
  unfold startJob
  cases g with
  | none => simp [Store.zadd, Store.zrem, Store.hset]
  | some y =>
    by_cases hy : x = y
    · simp [Store.zadd, Store.zrem, Store.hset, hy]
    · simp [Store.zadd, Store.zrem, Store.hset, hy, Ne.symm hy]

theorem startJob_nqMeta : (startJob s a queue id n g).nqMeta = s.nqMeta := by
  unfold startJob
  cases g <;> rfl

theorem startJob_groupMeta : (startJob s a queue id n g).groupMeta = s.groupMeta := by
  unfold startJob
  cases g <;> rfl

end Start

/-! ## The invariant -/

/-- A claim that began in `s₀` has come to `s` and started the jobs of `out`. -/
structure Claiming (a : ClaimArgs) (s₀ s : Store) (out : List ClaimedJob) : Prop where
  size : out.length ≤ a.batchSize
  distinct : (out.map (·.id)).Nodup
  taken : ∀ j ∈ out, s.state j.id = some .running ∧ (∃ q ∈ a.queues, s₀.PendingOn j.id q) ∧
    (s₀.hash j.id).kind = some j.kind ∧ j.kind ∈ a.kinds ∧ j.groupKey = given (s₀.hash j.id).groupKey
  left : ∀ j ∈ out, ∀ q, s.zscore (.wait q) j.id = none
  rest : ∀ id, id ∉ out.map (·.id) → s.cell id = s₀.cell id
  nqMeta : s.nqMeta = s₀.nqMeta
  limits : SameLimits s₀ s
  queues : ∀ q m, readNqMeta s₀ q = some m → (m.paused → s.zsets (.nqrun q) = s₀.zsets (.nqrun q)) ∧
    (0 ≤ m.maxConcurrency → ((s.zsets (.nqrun q)).card : ℤ) ≤ max m.maxConcurrency (s₀.zsets (.nqrun q)).card)
  groups : ∀ g m, readGroupMeta s₀ g = some m → (m.paused → s.zsets (.grouprun g) = s₀.zsets (.grouprun g)) ∧
    (0 ≤ m.maxConcurrency → ((s.zsets (.grouprun g)).card : ℤ) ≤ max m.maxConcurrency (s₀.zsets (.grouprun g)).card)
  budget : ∀ g, Budget a.now s₀ s g (out.countP (·.groupKey = some g))

section Claiming

variable {a : ClaimArgs} {s₀ s s' : Store} {out : List ClaimedJob} {id : JobId} {g queue : String}

theorem Claiming.begin (a : ClaimArgs) (s : Store) : Claiming a s s [] where
  size := Nat.zero_le _
  distinct := List.nodup_nil
  taken _ hj := absurd hj List.not_mem_nil
  left _ hj := absurd hj List.not_mem_nil
  rest _ _ := rfl
  nqMeta := rfl
  limits := .refl s
  queues _ _ _ := ⟨fun _ => rfl, fun _ => le_max_right _ _⟩
  groups _ _ _ := ⟨fun _ => rfl, fun _ => le_max_right _ _⟩
  budget g := .refl a.now s g

/-- A gate that stops the candidate. -/
theorem Claiming.stop (h : Claiming a s₀ s out) (hg : Gated s g a.now s' false) : Claiming a s₀ s' out := by
  have hlimits := h.limits.gate hg
  have hbudget := fun x => (h.budget x).stop hg
  obtain ⟨gm, rfl⟩ := hg.store_eq
  exact ⟨h.size, h.distinct, h.taken, h.left, h.rest, h.nqMeta, hlimits, h.queues, h.groups, hbudget⟩

/-- A pending job has not been started by this claim, and waits on its queue as it did at the beginning. -/
theorem Claiming.fresh (h : Claiming a s₀ s out) (hp : s.state id = some .pending) : id ∉ out.map (·.id) := by
  intro hm
  obtain ⟨j, hj, rfl⟩ := List.mem_map.mp hm
  rw [(h.taken j hj).1] at hp
  cases hp

/-- The caps of a set to which one job is added. -/
theorem cap_add {z z' z₀ : ZSet JobId} {cap sc : ℤ} (hz : z' = z.add sc id) (hroom : (z.card : ℤ) < cap) :
    (z'.card : ℤ) ≤ max cap z₀.card := by
  have hle : z'.card ≤ z.card + 1 := hz ▸ ZSet.card_add_le z sc id
  exact le_max_of_le_left (by omega)

/-- One job more of a group takes one token more. -/
theorem Budget.start {k : Nat} {o : Option String} (h : Budget a.now s₀ s g k) (hl : SameLimits s₀ s)
    (hg : Gated s (o.getD "") a.now s' true) : Budget a.now s₀ s' g (if given o = some g then k + 1 else k) := by
  by_cases hx : g = ""
  · subst hx
    intro m₀ hm₀
    have hnone : readGroupMeta s₀ "" = none := rfl
    rw [hnone] at hm₀
    cases hm₀
  · have hpass := h.pass hl hg
    have hiff : (given o = some g) ↔ g = o.getD "" := by
      rw [given_eq_some]
      exact ⟨fun he => he.1.symm, fun he => ⟨he.symm, hx⟩⟩
    simpa only [hiff] using hpass

/-- A job is started. -/
theorem Claiming.start (hs₀ : s₀.Consistent) (h : Claiming a s₀ s out) (hsize : out.length < a.batchSize)
    (hq : queue ∈ a.queues) {kind : String} (hkind : (s.hash id).kind = some kind) (hlisted : kind ∈ a.kinds)
    (hp : s.state id = some .pending) (hg : Gated s ((s.hash id).groupKey.getD "") a.now s' true)
    (hw : (s'.zscore (.wait queue) id).isSome)
    (hroom : ∀ m, readNqMeta s₀ queue = some m → m.paused = false ∧
      (0 ≤ m.maxConcurrency → ((s.zsets (.nqrun queue)).card : ℤ) < m.maxConcurrency)) (t : Option ℤ) :
    Claiming a s₀ (startJob s' a queue id ((s.hash id).attempt.getD 0 + 1) (given (s.hash id).groupKey))
      (out ++ [claimReply (s.hash id) a id kind t]) := by
  have hnew : id ∉ out.map (·.id) := h.fresh hp
  have hcell : s.cell id = s₀.cell id := h.rest id hnew
  have hhash : s.hash id = s₀.hash id := congrArg JobCell.fields hcell
  have hlimits := h.limits.gate hg
  have hbudget := fun x => (h.budget x).start h.limits hg
  have hpassed := fun m hm => hg.passed (m := m) hm
  obtain ⟨gm, rfl⟩ := hg.store_eq
  have hpending : s₀.PendingOn id queue := by
    refine hs₀.pendingOn ?_
    have hscore : s.zscore (.wait queue) id = s₀.zscore (.wait queue) id := congrArg (fun c => c.score (.wait queue)) hcell
    rw [← hscore]
    exact hw
  have hne : ∀ j ∈ out, j.id ≠ id := fun j hj he => hnew (List.mem_map.mpr ⟨j, hj, he⟩)
  have hother : ∀ j, j ≠ id → (startJob { s with groupMeta := gm } a queue id ((s.hash id).attempt.getD 0 + 1)
      (given (s.hash id).groupKey)).cell j = s.cell j := fun j hj => startJob_cell_ne _ a queue id _ _ hj
  refine ⟨?_, ?_, fun j hj => ?_, fun j hj q => ?_, fun i hi => ?_, ?_, ?_, fun q m hm => ?_, fun x m hm => ?_, fun x => ?_⟩
  · rw [List.length_append, List.length_singleton]
    omega
  · rw [List.map_append, List.nodup_append']
    refine ⟨h.distinct, List.nodup_singleton _, fun i hi hi' => hnew ?_⟩
    rw [List.map_singleton, List.mem_singleton] at hi'
    have hid : i = id := hi'
    exact hid ▸ hi
  · rcases List.mem_append.mp hj with hj | hj
    · obtain ⟨hr, hrest⟩ := h.taken j hj
      refine ⟨?_, hrest⟩
      have hst := congrArg (fun c => c.fields.state) (hother j.id (hne j hj))
      exact hst.trans hr
    · obtain rfl := List.mem_singleton.mp hj
      refine ⟨?_, ⟨queue, hq, hpending⟩, hhash ▸ hkind, hlisted, ?_⟩
      · show ((startJob _ a queue id _ _).hash id).state = some .running
        rw [startJob_hash, if_pos rfl]
      · show given (s.hash id).groupKey = given (s₀.hash id).groupKey
        rw [hhash]
  · rcases List.mem_append.mp hj with hj | hj
    · have hsc := congrArg (fun c => c.score (.wait q)) (hother j.id (hne j hj))
      exact hsc.trans (h.left j hj q)
    · obtain rfl := List.mem_singleton.mp hj
      refine (startJob_wait _ a queue id _ _ q).trans ?_
      split
      · rfl
      · next hqq =>
        have hsc := congrArg (fun c => c.score (.wait q)) hcell
        exact hsc.trans (hs₀.one_queue hpending hqq)
  · rw [List.map_append, List.mem_append, not_or, List.map_singleton, List.mem_singleton] at hi
    exact (hother i hi.2).trans (h.rest i hi.1)
  · exact (startJob_nqMeta _ a queue id _ _).trans h.nqMeta
  · exact hlimits.congr (startJob_groupMeta _ a queue id _ _)
  · rw [startJob_nqrun]
    split
    · next hqq =>
      subst hqq
      obtain ⟨hlive, hcap⟩ := hroom m hm
      exact ⟨fun hpa => absurd (hlive.symm.trans hpa) (by decide), fun hc => cap_add rfl (hcap hc)⟩
    · exact h.queues q m hm
  · rw [startJob_grouprun]
    split
    · next hx =>
      obtain ⟨hkey, _⟩ := given_eq_some.mp hx
      rcases h.limits x with ⟨hnone, _⟩ | ⟨m₀, m', hm₀, hm', hl⟩
      · rw [hnone] at hm
        cases hm
      · rw [hm₀, Option.some.injEq] at hm
        subst hm
        obtain ⟨hlive, hcap⟩ := hpassed m' (hkey ▸ hm')
        rw [hl.paused] at hlive
        rw [hl.maxConcurrency, hkey] at hcap
        exact ⟨fun hpa => absurd (hlive.symm.trans hpa) (by decide), fun hc => cap_add rfl (hcap hc)⟩
    · exact h.groups x m hm
  · have hcount : (out ++ [claimReply (s.hash id) a id kind t]).countP (·.groupKey = some x) =
        if given (s.hash id).groupKey = some x then out.countP (·.groupKey = some x) + 1
        else out.countP (·.groupKey = some x) := by
      rw [List.countP_append, List.countP_singleton]
      by_cases hx : given (s.hash id).groupKey = some x <;> simp [claimReply, hx]
    rw [hcount]
    exact (hbudget x).congr (startJob_groupMeta _ a queue id _ _)

end Claiming

/-! ## Scanning a queue -/

/-- In the middle of a queue: as long as it is open it is not paused, and the local `queue_room` is not more than the room
there is. -/
structure Scanning (a : ClaimArgs) (s₀ : Store) (queue : String) (c : ClaimState) : Prop where
  claiming : Claiming a s₀ c.store c.out
  room : c.isOpen = true → ∀ m, readNqMeta s₀ queue = some m → m.paused = false ∧
    (0 ≤ m.maxConcurrency → ∃ r, c.room = some r ∧ 0 < r ∧ r + (c.store.zsets (.nqrun queue)).card ≤ m.maxConcurrency)

section Scanning

variable {a : ClaimArgs} {s₀ : Store} {queue : String} {c : ClaimState}

/-- A gate does not touch the running sets. -/
theorem Scanning.stop (h : Scanning a s₀ queue c) {g : String} {s : Store} (hg : Gated c.store g a.now s false)
    (blocked : List String) (scanned : Nat) :
    Scanning a s₀ queue { c with store := s, blocked := blocked, scanned := scanned } := by
  refine ⟨h.claiming.stop hg, ?_⟩
  obtain ⟨gm, rfl⟩ := hg.store_eq
  exact h.room

/-- **One candidate** of the wait set. -/
theorem Scanning.entry (hs₀ : s₀.Consistent) (hq : queue ∈ a.queues) (t : Option ℤ) (h : Scanning a s₀ queue c)
    {id : JobId} (hid : (s₀.zscore (.wait queue) id).isSome) : Scanning a s₀ queue (claimEntry a queue t c id).1 := by
  have hstep := claimEntry_step a queue t c id
  revert hstep
  generalize (claimEntry a queue t c id).1 = c'
  intro hstep
  cases hstep with
  | skip => exact ⟨h.claiming, h.room⟩
  | stop gate => exact h.stop gate _ _
  | @gone s _ gate pending gone =>
    -- a pending job of a consistent store has not left its wait set
    exfalso
    have hcell := h.claiming.rest id (h.claiming.fresh pending)
    obtain ⟨gm, rfl⟩ := gate.store_eq
    have hsame : c.store.zscore (.wait queue) id = s₀.zscore (.wait queue) id :=
      congrArg (fun x => x.score (.wait queue)) hcell
    have hnone : c.store.zscore (.wait queue) id = none := gone
    rw [← hsame, hnone] at hid
    cases hid
  | @start s kind _ size isOpen hkind listed pending gate waits =>
    have hroom := h.room isOpen
    refine ⟨h.claiming.start hs₀ size hq hkind listed pending gate waits (fun m hm => ?_) t, fun hopen m hm => ?_⟩
    · obtain ⟨hlive, hcap⟩ := hroom m hm
      refine ⟨hlive, fun hc => ?_⟩
      obtain ⟨r, _, hpos, hle⟩ := hcap hc
      omega
    · obtain ⟨hlive, hcap⟩ := hroom m hm
      refine ⟨hlive, fun hc => ?_⟩
      obtain ⟨r, hr, hpos, hle⟩ := hcap hc
      have hopen : (c.isOpen && (c.room.map (· - 1)).all (0 < ·)) = true := hopen
      rw [hr, Bool.and_eq_true] at hopen
      have hmore : 0 < r - 1 := by simpa using hopen.2
      refine ⟨r - 1, by simp [hr], hmore, ?_⟩
      -- one job more in the set, one place less in the local count
      obtain ⟨gm, rfl⟩ := gate.store_eq
      show r - 1 + ((startJob _ a queue id _ _).zsets (.nqrun queue)).card ≤ m.maxConcurrency
      rw [startJob_nqrun, if_pos rfl]
      have hadd := ZSet.card_add_le (c.store.zsets (.nqrun queue)) a.now id
      push_cast
      omega

/-- A page of the wait set. What it lists waits since the beginning of the call. -/
theorem Scanning.slice (hs₀ : s₀.Consistent) (hq : queue ∈ a.queues) (t : Option ℤ) (h : Scanning a s₀ queue c)
    (offset n : Nat) :
    Scanning a s₀ queue (claimSlice a queue t ((c.store.zsets (.wait queue)).range offset n) c) := by
  refine forEach_inv (P := Scanning a s₀ queue) h (fun c' id hid hc' => hc'.entry hs₀ hq t ?_)
  have hwaits : (c.store.zscore (.wait queue) id).isSome := ZSet.mem_of_mem_range hid
  have hnew : id ∉ c.out.map (·.id) := by
    intro hm
    obtain ⟨j, hj, rfl⟩ := List.mem_map.mp hm
    rw [h.claiming.left j hj queue] at hwaits
    cases hwaits
  have hsame : c.store.zscore (.wait queue) id = s₀.zscore (.wait queue) id :=
    congrArg (fun x => x.score (.wait queue)) (h.claiming.rest id hnew)
  exact hsame ▸ hwaits

/-- All pages that are read. -/
theorem Scanning.pages (hs₀ : s₀.Consistent) (hq : queue ∈ a.queues) (t : Option ℤ) (fuel offset : Nat)
    (h : Scanning a s₀ queue c) : Scanning a s₀ queue (claimPages a queue t fuel offset c) :=
  claimPages_rule (fun _ offset n hc => hc.slice hs₀ hq t offset n) fuel offset h

/-- The gate of a queue at the beginning of its scan. -/
theorem Scanning.gate {s : Store} {out : List ClaimedJob} (h : Claiming a s₀ s out) (queue : String) :
    Scanning a s₀ queue { store := s, out := out, isOpen := (queueGate s queue).1, room := (queueGate s queue).2 } := by
  refine ⟨h, fun hopen m hm => ?_⟩
  have hm' : readNqMeta s queue = some m := by
    rw [readNqMeta, h.nqMeta]
    exact hm
  dsimp only at hopen ⊢
  unfold queueGate at hopen ⊢
  rw [hm'] at hopen ⊢
  dsimp only at hopen ⊢
  by_cases hlim : nqHasLimits m = true
  · rw [if_neg (not_not.mpr hlim)] at hopen ⊢
    by_cases hpaused : m.paused = true
    · rw [if_pos hpaused] at hopen
      cases hopen
    · rw [if_neg hpaused] at hopen ⊢
      refine ⟨Bool.eq_false_iff.mpr hpaused, fun hc => ?_⟩
      rw [if_pos hc] at hopen ⊢
      have hpos : m.maxConcurrency - ((s.zsets (.nqrun queue)).card : ℤ) > 0 := by simpa using hopen
      exact ⟨_, rfl, hpos, by omega⟩
  · simp only [nqHasLimits, Bool.or_eq_true, decide_eq_true_eq, not_or, Bool.not_eq_true] at hlim
    exact ⟨hlim.1, fun hc => absurd hc hlim.2⟩

end Scanning

/-! ## The whole call -/

/-- A queue with two places and three jobs, two of them in a group of one token. -/
def limitedRun : List Op :=
  [.queueSetConcurrency "default" 2,
   .groupSetRate "g" 1 60000 500,
   .enqueue { kind := "mail", queue := "default", groupKey := "g" } 1000,
   .enqueue { kind := "mail", queue := "default", groupKey := "g" } 1000,
   .enqueue { kind := "mail", queue := "default" } 1000]

def limitedClaim : ClaimArgs :=
  { batchSize := 4, worker := "w", now := 2000, queues := ["default", "default"], kinds := ["mail"] }

theorem limitedRun_reached : (limitedRun.foldl Op.apply Store.empty).Reached (Op.Ok True) :=
  run_of_guards limitedRun (Reach.refl _) ⟨trivial, trivial, fun _ => ⟨by decide, by decide⟩, fun _ => ⟨by decide, by decide⟩,
    fun _ => ⟨by decide, by decide⟩, trivial⟩

end Eddyq.Redis
