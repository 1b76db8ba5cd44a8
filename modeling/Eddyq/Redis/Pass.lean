import Eddyq.Redis.Order

/-!
# A claim as one greedy pass

What a claim on one queue is for: one pass over the wait list as it was when the call began. An entry is claimed when its
kind is listed, and its group lets it through; the pass ends when the batch is full, the queue has no room, the list is
exhausted, or a page ends after `CLAIM_SCAN_LIMIT` entries. `Pass` keeps the store, the reply and the number of entries
examined, and no blocked groups, no room and no offset: it asks the gates again at every entry.

The code reads pages of a set that it takes entries out of (`claimLoop`, `claimPages`). `Steady` is what its local
variables say about the store; with it, a page is that many entries of the pass (`claimSlice_greedy`) and the loop is the
pass (`claimLoop_greedy`).
-/

namespace Eddyq.Redis

open Eddyq.Lib

/-! ## The pass -/

/-- What a pass keeps. -/
structure Pass where
  store : Store
  claimed : List ClaimedJob := []
  examined : Nat := 0

/-- The kind of a job, if it is listed. -/
def JobHash.listed (h : JobHash) (a : ClaimArgs) : Option String := h.kind.filter (· ∈ a.kinds)

/-- The group of a job, as the gate asks for it. -/
def Store.gateKey (s : Store) (id : JobId) : String := (s.hash id).groupKey.getD ""

/-- What the pass does with an entry. -/
def visit (a : ClaimArgs) (q : String) (t : Option ℤ) (p : Pass) (id : JobId) : Pass :=
  let h := p.store.hash id
  let gate := groupGate p.store (p.store.gateKey id) a.now
  match h.listed a with
  | none => { p with examined := p.examined + 1 }
  | some kind =>
    if gate.2 then
      { store := startJob gate.1 a q id (h.attempt.getD 0 + 1) (given h.groupKey)
        claimed := p.claimed ++ [claimReply h a id kind t]
        examined := p.examined + 1 }
    else { p with store := gate.1, examined := p.examined + 1 }

/-- The batch is full, or the queue has no room. -/
def Pass.stopped (a : ClaimArgs) (q : String) (p : Pass) : Bool :=
  p.claimed.length ≥ a.batchSize || !(queueGate p.store q).1

/-- A page has ended, and enough has been examined. -/
def pageLimit (a : ClaimArgs) (examined : Nat) : Bool :=
  examined % (a.batchSize * 4) = 0 && claimScanLimit ≤ examined

/-- The pass over the entries of a wait list. -/
def greedy (a : ClaimArgs) (q : String) (t : Option ℤ) : List JobId → Pass → Pass
  | [], p => p
  | id :: ids, p =>
    if p.stopped a q || pageLimit a p.examined then p else greedy a q t ids (visit a q t p id)

/-- A job that a claim could still start. -/
structure Claimable (a : ClaimArgs) (q : String) (s : Store) (id : JobId) : Prop where
  waits : id ∈ (s.zsets (.wait q)).members
  listed : ((s.hash id).listed a).isSome
  room : (queueGate s q).1 = true
  free : (groupGate s (s.gateKey id) a.now).2 = true

/-! ## The loop -/

/-- The paging loop as it stands, in at most so many rounds; none if it has not ended by then. -/
def claimLoop (a : ClaimArgs) (q : String) (t : Option ℤ) : Nat → Nat → ClaimState → Option ClaimState
  | 0, _, _ => none
  | fuel + 1, offset, c =>
    if c.isOpen ∧ c.taken < a.batchSize ∧ c.scanned < claimScanLimit then
      let page := a.batchSize * 4
      let slice := (c.store.zsets (.wait q)).range offset page
      if slice = [] then some c
      else
        let c' := claimSlice a q t slice c
        if slice.length < page then some c'
        else claimLoop a q t fuel (offset + slice.length - (c'.taken - c.taken)) c'
    else some c

section Loop

variable {a : ClaimArgs} {q : String} {t : Option ℤ}

/-- A loop that ends is the loop of the claim. -/
theorem claimPages_of_loop : ∀ {fuel offset : Nat} {c c' : ClaimState}, claimLoop a q t fuel offset c = some c' →
    claimPages a q t fuel offset c = c'
  | 0, _, _, _, h => by cases h
  | fuel + 1, offset, c, c', h => by
    unfold claimLoop at h
    unfold claimPages
    split at h
    · next hgo =>
      rw [if_pos hgo]
      dsimp only at h ⊢
      split at h
      · next hnil =>
        rw [if_pos hnil]
        exact Option.some.inj h
      · next hnil =>
        rw [if_neg hnil]
        split at h
        · next hshort =>
          rw [if_pos hshort]
          exact Option.some.inj h
        · next hshort =>
          rw [if_neg hshort]
          exact claimPages_of_loop h
    · next hgo =>
      rw [if_neg hgo]
      exact Option.some.inj h

end Loop

/-! ## Groups that are closed -/

section Closed

variable {s s' : Store} {g x : String} {now : ℤ}

/-- The gate stops the group's jobs and has nothing left to write. -/
def Closed (s : Store) (now : ℤ) (g : String) : Prop := groupGate s g now = (s, false)

theorem refillTokens_idem (m : GroupView) (now : ℤ) : refillTokens (refillTokens m now) now = refillTokens m now := by
  by_cases h : m.rateCount < 0 ∨ m.ratePeriodMs ≤ 0
  · have hm : refillTokens m now = m := if_pos h
    rw [hm, hm]
  · have hm : refillTokens m now = { m with
        tokens := min (m.rateCount : ℚ) (m.tokens + (max (now - m.refilledAt) 0 * m.rateCount : ℤ) / (m.ratePeriodMs : ℚ))
        refilledAt := now } := if_neg h
    rw [hm]
    unfold refillTokens
    rw [if_neg h]
    simp

/-- A second look at the same moment writes what is there. -/
theorem persistTokens_idem (s : Store) (g : String) (m : GroupView) :
    persistTokens (persistTokens s g m) g m = persistTokens s g m := by
  unfold persistTokens
  simp

/-- The gate reads the group's metadata and its running set, and writes the group's metadata. -/
theorem groupGate_congr (hm : s'.groupMeta g = s.groupMeta g)
    (hr : s'.zsets (.grouprun g) = s.zsets (.grouprun g)) :
    (groupGate s' g now).2 = (groupGate s g now).2 ∧
      (groupGate s' g now).1.groupMeta g = (groupGate s g now).1.groupMeta g := by
  have hmeta : readGroupMeta s' g = readGroupMeta s g := by
    unfold readGroupMeta
    rw [hm]
  unfold groupGate
  rw [hmeta, hr]
  split
  · exact ⟨rfl, hm⟩
  · split
    · exact ⟨rfl, hm⟩
    split
    · exact ⟨rfl, hm⟩
    split
    · exact ⟨rfl, hm⟩
    split
    · dsimp only
      split
      · simp [persistTokens, hm]
      · simp [persistTokens, hm]
    · exact ⟨rfl, hm⟩

/-- What the gate writes, it writes at the group. -/
theorem groupGate_store (s : Store) (g : String) (now : ℤ) :
    (groupGate s g now).1 = { s with groupMeta := Function.update s.groupMeta g ((groupGate s g now).1.groupMeta g) } := by
  have hg := groupGate_gated s g now
  generalize (groupGate s g now).1 = s₁ at hg
  generalize (groupGate s g now).2 = b at hg
  cases hg with
  | free | closed | roomy => simp
  | dry | paid => simp [persistTokens]

theorem Closed.congr (h : Closed s now g) (hm : s'.groupMeta g = s.groupMeta g)
    (hr : s'.zsets (.grouprun g) = s.zsets (.grouprun g)) : Closed s' now g := by
  obtain ⟨hb, hg⟩ := @groupGate_congr s s' g now hm hr
  rw [h] at hb hg
  refine Prod.ext ?_ hb
  rw [groupGate_store, hg, ← hm, Function.update_eq_self]

/-- Who is stopped once is stopped again. -/
theorem Closed.of_stop (h : (groupGate s g now).2 = false) : Closed (groupGate s g now).1 now g := by
  unfold Closed
  cases hm : readGroupMeta s g with
  | none => simp [groupGate, hm] at h
  | some m =>
    simp only [groupGate, hm] at h ⊢
    split at h
    · cases h
    next hlim =>
    rw [if_neg hlim]
    split at h
    · next hp => simp [hp, hm, hlim]
    next hp =>
    rw [if_neg hp]
    split at h
    · next hfull => simp [hp, hfull, hm, hlim]
    next hfull =>
    rw [if_neg hfull]
    split at h
    · next hrate =>
      split at h
      · next hdry =>
        -- the bucket has been written back, and is filled up to the same tokens
        rw [if_pos hrate, if_pos hdry]
        obtain ⟨h1, h2, h3, h4⟩ := refillTokens_sameLimits m now
        rw [readGroupMeta_persist hm ⟨h1, h2, h3, h4⟩]
        have hlim' : ¬ ¬ groupHasLimits (refillTokens m now) = true := by
          simpa [groupHasLimits, h1, h2, h3] using hlim
        have hfull' : ¬ ((refillTokens m now).maxConcurrency ≥ 0 ∧
            (((persistTokens s g (refillTokens m now)).zsets (.grouprun g)).card : ℤ) ≥
              (refillTokens m now).maxConcurrency) := by
          rw [h1]
          exact hfull
        dsimp only
        rw [if_neg hlim', h2, if_neg hp, if_neg hfull', h3, if_pos hrate, refillTokens_idem, if_pos hdry,
          persistTokens_idem]
      · cases h
    · cases h

end Closed

/-! ## What the local variables say -/

/-- The pass that the local variables stand for. -/
def ClaimState.pass (c : ClaimState) : Pass := ⟨c.store, c.out, c.scanned⟩

/-- The room is what the queue's gate would say now, the blocked groups are closed, and who waits is pending and does not
run. -/
structure Steady (a : ClaimArgs) (q : String) (c : ClaimState) : Prop where
  gate : queueGate c.store q = (c.isOpen, c.room)
  blocked : ∀ g ∈ c.blocked, Closed c.store a.now g
  waits : ∀ id ∈ (c.store.zsets (.wait q)).members,
    c.store.state id = some .pending ∧ c.store.zscore (.nqrun q) id = none

section Step

variable {a : ClaimArgs} {q : String} {t : Option ℤ} {c : ClaimState} {id : JobId} {s : Store}

theorem Steady.start {s : Store} (hs : s.Consistent) (q : String) : Steady a q
    { store := s, isOpen := (queueGate s q).1, room := (queueGate s q).2 } where
  gate := rfl
  blocked := nofun
  waits id hid := by
    have hp := hs.pendingOn (ZSet.mem_members.mp hid)
    refine ⟨hp.state, ?_⟩
    by_contra hne
    have hm : id ∈ (s.zsets (.nqrun q)).members := ZSet.mem_members.mpr (Option.isSome_iff_ne_none.mpr hne)
    obtain ⟨x, hx⟩ := Option.isSome_iff_exists.mp (hs.hashed id _ hm)
    have hk := (hs.prescribed id x hx _).mp hm
    have hst : x.state = some .pending := by
      have := hp.state
      rwa [Store.state, Store.hash, hx] at this
    simp [JobHash.prescribed, hst, homeKeys] at hk

/-- The queue's gate reads the queue's metadata and its running set. -/
theorem queueGate_congr {s s' : Store} (hm : s'.nqMeta = s.nqMeta) (hr : s'.zsets (.nqrun q) = s.zsets (.nqrun q)) :
    queueGate s' q = queueGate s q := by
  unfold queueGate readNqMeta
  rw [hm, hr]

/-- One more job runs on an open queue. -/
theorem queueGate_start {isOpen : Bool} {room : Option ℤ} (hg : queueGate s q = (isOpen, room))
    (hnew : s.zscore (.nqrun q) id = none) (n : ℤ) (g : Option String) (hopen : isOpen = true) :
    queueGate (startJob s a q id n g) q = (isOpen && (room.map (· - 1)).all (0 < ·), room.map (· - 1)) := by
  have hcard : ((startJob s a q id n g).zsets (.nqrun q)).card = (s.zsets (.nqrun q)).card + 1 := by
    rw [startJob_nqrun, if_pos rfl]
    exact ZSet.card_add_new hnew a.now
  have hmeta : readNqMeta (startJob s a q id n g) q = readNqMeta s q := by
    unfold readNqMeta
    rw [startJob_nqMeta]
  unfold queueGate at hg ⊢
  rw [hmeta, hcard]
  split at hg
  · cases hg
    rfl
  · split at hg
    · next hlim =>
      cases hg
      simp [hlim]
    split at hg
    · cases hg
      cases hopen
    next hlim hp =>
    rw [if_neg hlim, if_neg hp]
    split at hg
    · next hc =>
      cases hg
      rw [if_pos hc]
      simp only [gt_iff_lt, decide_eq_true_eq] at hopen
      simp only [Option.map_some, Option.all_some, Nat.cast_add, Nat.cast_one, Prod.mk.injEq, Option.some.injEq]
      refine ⟨?_, by omega⟩
      simp only [gt_iff_lt, hopen, decide_true, Bool.true_and, decide_eq_decide]
      omega
    · next hc =>
      cases hg
      rw [if_neg hc]
      rfl

/-- The gate of a group touches no job, no queue and no other group. -/
theorem Steady.gated {b : Bool} {g : String} (h : Steady a q c) (hg : groupGate c.store g a.now = (s, b)) :
    queueGate s q = (c.isOpen, c.room) ∧ s.zsets = c.store.zsets ∧ s.hash = c.store.hash ∧
      ∀ x ∈ c.blocked, x ≠ g → Closed s a.now x := by
  have hst := groupGate_store c.store g a.now
  rw [hg] at hst
  dsimp only at hst
  have hz : s.zsets = c.store.zsets := by rw [hst]
  refine ⟨?_, hz, by rw [hst]; rfl, fun x hx hne => ?_⟩
  · rw [← h.gate]
    exact queueGate_congr (by rw [hst]) (by rw [hz])
  · refine (h.blocked x hx).congr ?_ (by rw [hz])
    rw [hst]
    simp [hne]

/-- An entry that is passed over. -/
theorem Steady.skip (h : Steady a q c) : Steady a q { c with scanned := c.scanned + 1 } := ⟨h.gate, h.blocked, h.waits⟩

/-- An entry whose group stops it. -/
theorem Steady.stop {g : Option String} (h : Steady a q c) (hg : groupGate c.store (g.getD "") a.now = (s, false)) :
    Steady a q { c with store := s, blocked := (given g).toList ++ c.blocked, scanned := c.scanned + 1 } := by
  obtain ⟨hgate, hz, hh, hb⟩ := h.gated hg
  have hclosed : Closed s a.now (g.getD "") := by
    have := @Closed.of_stop c.store (g.getD "") a.now (by rw [hg])
    rwa [hg] at this
  refine ⟨hgate, fun x hx => ?_, fun id hid => ?_⟩
  · by_cases hxg : x = g.getD ""
    · exact hxg ▸ hclosed
    · rcases List.mem_append.mp hx with hx | hx
      · exact absurd (given_eq_some.mp (Option.mem_toList.mp hx)).1.symm hxg
      · exact hb x hx hxg
  · have := h.waits id (by rwa [← hz])
    rw [Store.state, Store.zscore] at this ⊢
    rw [hz, hh]
    exact this

/-- An entry that is started. -/
theorem Steady.started {g : Option String} (h : Steady a q c) (hg : groupGate c.store (g.getD "") a.now = (s, true))
    (hid : id ∈ (c.store.zsets (.wait q)).members) (hopen : c.isOpen = true) (n : ℤ)
    (out : List ClaimedJob) : Steady a q
      { c with
        store := startJob s a q id n (given g)
        out := out
        room := c.room.map (· - 1)
        isOpen := c.isOpen && (c.room.map (· - 1)).all (0 < ·)
        scanned := c.scanned + 1 } := by
  obtain ⟨hgate, hz, hh, hb⟩ := h.gated hg
  have hw := h.waits id hid
  refine ⟨queueGate_start hgate (by rw [Store.zscore, hz]; exact hw.2) n (given g) hopen, fun x hx => ?_, fun j hj => ?_⟩
  · have hne : x ≠ g.getD "" := by
      rintro rfl
      -- a blocked group would have stopped the entry
      have := h.blocked _ hx
      rw [Closed, hg] at this
      cases this
    refine (hb x hx hne).congr (by rw [startJob_groupMeta]) ?_
    rw [startJob_grouprun, if_neg (fun e => hne (given_eq_some.mp e).1.symm)]
  · rw [startJob_waitSet, ZSet.members_rem, List.mem_filter, hz] at hj
    have hne : j ≠ id := by simpa using hj.2
    have hcell := startJob_cell_ne s a q id n (given g) hne
    have := h.waits j hj.1
    have hhash : (startJob s a q id n (given g)).hash j = s.hash j := congrArg JobCell.fields hcell
    have hscore : (startJob s a q id n (given g)).zscore (.nqrun q) j = s.zscore (.nqrun q) j :=
      congrArg (fun x => x.score (.nqrun q)) hcell
    rw [Store.state, hscore, hhash, hh, Store.zscore, hz]
    exact this

/-- What the loop does with an entry: what the pass does with it. An entry that is not claimed stays in the wait set. -/
structure Visited (a : ClaimArgs) (q : String) (t : Option ℤ) (c : ClaimState) (id : JobId) (c' : ClaimState) : Prop where
  steady : Steady a q c'
  pass : c'.pass = visit a q t c.pass id
  waiting : (c'.taken = c.taken ∧ (c'.store.zsets (.wait q)).members = (c.store.zsets (.wait q)).members) ∨
    (c'.taken = c.taken + 1 ∧
      (c'.store.zsets (.wait q)).members = (c.store.zsets (.wait q)).members.filter (· ≠ id))

/-- An entry that is passed over. -/
theorem Visited.skip (h : Steady a q c) (hv : visit a q t c.pass id = { c.pass with examined := c.scanned + 1 }) :
    Visited a q t c id { c with scanned := c.scanned + 1 } := ⟨h.skip, hv.symm, Or.inl ⟨rfl, rfl⟩⟩

/-- **One entry** of the loop is one entry of the pass. -/
theorem claimEntry_visited (t : Option ℤ) (h : Steady a q c) (hsize : c.taken < a.batchSize) (hopen : c.isOpen = true)
    (hid : id ∈ (c.store.zsets (.wait q)).members) :
    ∃ c', claimEntry a q t c id = (c', true) ∧ Visited a q t c id c' := by
  have hgo : ¬ (c.taken ≥ a.batchSize ∨ ¬ c.isOpen) := by simp [hsize, hopen]
  have hpending : (c.store.hash id).state = some .pending := (h.waits id hid).1
  cases hk : (c.store.hash id).kind with
  | none =>
    refine ⟨_, ?_, Visited.skip h ?_⟩
    · simp [claimEntry, hsize, hopen, hk]
    · simp [visit, ClaimState.pass, JobHash.listed, hk]
  | some kind =>
    by_cases hlisted : kind ∈ a.kinds
    · have hl : (c.store.hash id).listed a = some kind := by simp [JobHash.listed, hk, hlisted]
      by_cases hb : (given (c.store.hash id).groupKey).any (· ∈ c.blocked)
      · -- a blocked group: the gate would stop the entry again and write nothing
        obtain ⟨x, hx, hmem⟩ : ∃ x, given (c.store.hash id).groupKey = some x ∧ x ∈ c.blocked := by
          simpa [Option.any_eq_true] using hb
        have hclosed : groupGate c.store (c.store.gateKey id) a.now = (c.store, false) := by
          have := h.blocked x hmem
          rwa [← (given_eq_some.mp hx).1] at this
        refine ⟨_, ?_, Visited.skip h ?_⟩
        · simp [claimEntry, hsize, hopen, hk, hb]
        · simp [visit, ClaimState.pass, hl, hclosed]
      · have hpass : ¬ (kind ∉ a.kinds ∨ (c.store.hash id).state ≠ some .pending ∨
            (given (c.store.hash id).groupKey).any (· ∈ c.blocked)) := by simp [hlisted, hpending, hb]
        cases hg : groupGate c.store (c.store.gateKey id) a.now with
        | mk s b =>
          have hg' : groupGate c.store ((c.store.hash id).groupKey.getD "") a.now = (s, b) := hg
          obtain ⟨-, hz, -, -⟩ := h.gated hg
          cases b with
          | false =>
            refine ⟨_, ?_, h.stop hg', ?_, Or.inl ⟨rfl, by rw [hz]⟩⟩
            · unfold claimEntry
              rw [if_neg hgo]
              dsimp only
              rw [hk]
              dsimp only
              rw [if_neg hpass, hg']
            · simp [visit, ClaimState.pass, hl, hg]
          | true =>
            have hwaits : ¬ (s.zscore (.wait q) id).isNone = true := by
              rw [Store.zscore, hz]
              simpa [Option.isSome_iff_ne_none] using ZSet.mem_members.mp hid
            refine ⟨_, ?_, h.started hg' hid hopen ((c.store.hash id).attempt.getD 0 + 1)
              (c.out ++ [claimReply (c.store.hash id) a id kind t]), ?_, Or.inr ⟨?_, ?_⟩⟩
            · unfold claimEntry
              rw [if_neg hgo]
              dsimp only
              rw [hk]
              dsimp only
              rw [if_neg hpass, hg']
              dsimp only
              rw [if_neg hwaits]
            · simp [visit, ClaimState.pass, hl, hg]
            · simp [ClaimState.taken]
            · dsimp only
              rw [startJob_waitSet, ZSet.members_rem, hz]
    · have hl : (c.store.hash id).listed a = none := by simp [JobHash.listed, hk, hlisted]
      refine ⟨_, ?_, Visited.skip h ?_⟩
      · simp [claimEntry, hsize, hopen, hk, hlisted]
      · simp [visit, ClaimState.pass, hl]

end Step

/-! ## A page -/

section Page

variable {a : ClaimArgs} {q : String} {t : Option ℤ} {c : ClaimState}

/-- A pass that has stopped stays as it is. -/
theorem greedy_stopped {p : Pass} (h : p.stopped a q = true) (l : List JobId) : greedy a q t l p = p := by
  cases l with
  | nil => rfl
  | cons id l => simp [greedy, h]

theorem Steady.stopped_iff (h : Steady a q c) : c.pass.stopped a q = true ↔ ¬ (c.isOpen ∧ c.taken < a.batchSize) := by
  have hg : (queueGate c.store q).1 = c.isOpen := by rw [h.gate]
  simp only [Pass.stopped, ClaimState.pass, hg, Bool.or_eq_true, Bool.not_eq_true', not_and, not_lt]
  cases c.isOpen <;> simp [ClaimState.taken]

/-- Taking an entry out of the list of the waiting. -/
theorem filter_ne_split {pre r : List JobId} {id : JobId} (hnd : (pre ++ id :: r).Nodup) :
    (pre ++ id :: r).filter (· ≠ id) = pre ++ r := by
  have hsplit := List.nodup_append'.mp hnd
  have hpre : pre.filter (· ≠ id) = pre := by
    refine List.filter_eq_self.mpr (fun x hx => decide_eq_true fun e => ?_)
    exact hsplit.2.2 hx (e ▸ List.mem_cons_self)
  have hr : r.filter (· ≠ id) = r := by
    refine List.filter_eq_self.mpr (fun x hx => decide_eq_true fun e => ?_)
    exact (List.nodup_cons.mp hsplit.2.1).1 (e ▸ hx)
  rw [List.filter_append, List.filter_cons_of_neg (by simp), hpre, hr]

/-- What a page does: it keeps what the variables say, it takes its claimed entries out of the waiting and leaves the
order of the others, and it is so many entries of the pass. -/
structure PageStep (a : ClaimArgs) (q : String) (t : Option ℤ) (c : ClaimState) (pre l r : List JobId)
    (c' : ClaimState) : Prop where
  steady : Steady a q c'
  grows : c.taken ≤ c'.taken
  left : ∃ l', (c'.store.zsets (.wait q)).members = pre ++ l' ++ r ∧ l'.length + (c'.taken - c.taken) = l.length
  pass : greedy a q t (l ++ r) c.pass = greedy a q t r c'.pass
  scanned : c'.scanned = c.scanned + l.length ∨ c'.pass.stopped a q = true

theorem PageStep.nil (h : Steady a q c) {pre r : List JobId} (hm : (c.store.zsets (.wait q)).members = pre ++ r) :
    PageStep a q t c pre [] r c where
  steady := h
  grows := le_rfl
  left := ⟨[], by simpa using hm, by simp⟩
  pass := rfl
  scanned := Or.inl rfl

theorem PageStep.stopped (h : Steady a q c) {pre l r : List JobId}
    (hm : (c.store.zsets (.wait q)).members = pre ++ l ++ r) (hs : c.pass.stopped a q = true) :
    PageStep a q t c pre l r c where
  steady := h
  grows := le_rfl
  left := ⟨l, hm, by simp⟩
  pass := by rw [greedy_stopped hs, greedy_stopped hs]
  scanned := Or.inr hs

/-- An entry and then the rest of the page. An entry that is not claimed stays in the wait set, before the entries to come. -/
theorem PageStep.cons {c₁ c' : ClaimState} {pre pre' l r : List JobId} {id : JobId} (ih : PageStep a q t c₁ pre' l r c')
    (hpass : greedy a q t (id :: l ++ r) c.pass = greedy a q t (l ++ r) c₁.pass) (hscan : c₁.scanned = c.scanned + 1)
    (hcase : (c₁.taken = c.taken ∧ pre' = pre ++ [id]) ∨ (c₁.taken = c.taken + 1 ∧ pre' = pre)) :
    PageStep a q t c pre (id :: l) r c' := by
  obtain ⟨l', hl', hlen⟩ := ih.left
  have hgrows := ih.grows
  have hscanned : c'.scanned = c.scanned + (id :: l).length ∨ c'.pass.stopped a q = true := by
    refine ih.scanned.imp_left fun hs => ?_
    rw [hs, hscan, List.length_cons]
    omega
  rcases hcase with ⟨htaken, rfl⟩ | ⟨htaken, rfl⟩
  · exact ⟨ih.steady, by omega, ⟨id :: l', by simpa using hl', by simp only [List.length_cons]; omega⟩, hpass.trans ih.pass,
      hscanned⟩
  · exact ⟨ih.steady, by omega, ⟨l', hl', by simp only [List.length_cons]; omega⟩, hpass.trans ih.pass, hscanned⟩

/-- The pass counts every entry. -/
theorem visit_examined (p : Pass) (id : JobId) : (visit a q t p id).examined = p.examined + 1 := by
  unfold visit
  dsimp only
  split
  · rfl
  · split <;> rfl

/-- **A page** of the loop: so many entries of the pass, unless the scan limit is reached within it. -/
theorem claimSlice_greedy : ∀ (l : List JobId) {c : ClaimState} {pre r : List JobId}, Steady a q c →
    (c.store.zsets (.wait q)).members = pre ++ l ++ r → (∀ i < l.length, pageLimit a (c.scanned + i) = false) →
    PageStep a q t c pre l r (claimSlice a q t l c)
  | [], c, pre, r, h, hm, _ => PageStep.nil h (by simpa using hm)
  | id :: l, c, pre, r, h, hm, hlim => by
    by_cases hgo : c.isOpen ∧ c.taken < a.batchSize
    · have hid : id ∈ (c.store.zsets (.wait q)).members := by simp [hm]
      obtain ⟨c₁, he, h₁, hv, hcase⟩ := claimEntry_visited t h hgo.2 hgo.1 hid
      have hslice : claimSlice a q t (id :: l) c = claimSlice a q t l c₁ := by
        unfold claimSlice
        rw [forEach, if_pos (by rw [he]), he]
      have hscan : c₁.scanned = c.scanned + 1 := (congrArg Pass.examined hv).trans (visit_examined _ _)
      have hlim₁ : ∀ i < l.length, pageLimit a (c₁.scanned + i) = false := by
        intro i hi
        rw [hscan, Nat.add_assoc, Nat.add_comm 1 i]
        exact hlim (i + 1) (by simpa using hi)
      have hpass : greedy a q t (id :: l ++ r) c.pass = greedy a q t (l ++ r) c₁.pass := by
        have hns : c.pass.stopped a q = false := by
          rw [Bool.eq_false_iff, Ne, h.stopped_iff, not_not]
          exact hgo
        have h0 : pageLimit a c.pass.examined = false := hlim 0 (by simp)
        rw [List.cons_append, greedy, hns, h0, hv]
        rfl
      rw [hslice]
      rcases hcase with ⟨htaken, hsame⟩ | ⟨htaken, hrem⟩
      · have hm₁ : (c₁.store.zsets (.wait q)).members = pre ++ [id] ++ l ++ r := by
          rw [hsame, hm]
          simp
        exact PageStep.cons (claimSlice_greedy l h₁ hm₁ hlim₁) hpass hscan (.inl ⟨htaken, rfl⟩)
      · have hnd : (pre ++ id :: (l ++ r)).Nodup := by
          have := (c.store.zsets (.wait q)).nodup
          rw [ZSet.members] at hm
          rw [hm] at this
          simpa using this
        have hm₁ : (c₁.store.zsets (.wait q)).members = pre ++ l ++ r := by
          rw [hrem, hm, List.append_assoc, List.cons_append, filter_ne_split hnd, List.append_assoc]
        exact PageStep.cons (claimSlice_greedy l h₁ hm₁ hlim₁) hpass hscan (.inr ⟨htaken, rfl⟩)
    · have hs : c.pass.stopped a q = true := h.stopped_iff.mpr hgo
      have hstop : claimEntry a q t c id = (c, false) := by
        unfold claimEntry
        rw [if_pos]
        rw [not_and, not_lt] at hgo
        by_cases ho : c.isOpen = true
        · exact Or.inl (hgo ho)
        · exact Or.inr ho
      have hslice : claimSlice a q t (id :: l) c = c := by
        unfold claimSlice
        rw [forEach, hstop]
        rfl
      rw [hslice]
      exact PageStep.stopped h hm hs

/-- Between two page ends the scan limit does not stop the pass. -/
theorem pageLimit_within {n i : Nat} (hn : n % (a.batchSize * 4) = 0) (hi : i < a.batchSize * 4)
    (hlim : n < claimScanLimit) : pageLimit a (n + i) = false := by
  cases i with
  | zero => simp [pageLimit, hlim]
  | succ i =>
    have hmod : (n + (i + 1)) % (a.batchSize * 4) ≠ 0 := by
      rw [Nat.add_mod, hn, Nat.zero_add, Nat.mod_mod, Nat.mod_eq_of_lt hi]
      exact Nat.succ_ne_zero i
    simp [pageLimit, hmod]

/-- Where the loop ends before a page, so does the pass. -/
theorem greedy_over (h : Steady a q c) (hpage : c.scanned % (a.batchSize * 4) = 0)
    (hgo : ¬ (c.isOpen ∧ c.taken < a.batchSize ∧ c.scanned < claimScanLimit)) (r : List JobId) :
    greedy a q t r c.pass = c.pass := by
  by_cases hstop : c.pass.stopped a q = true
  · exact greedy_stopped hstop r
  · have hopen := h.stopped_iff.not_left.mp hstop
    have hlimit : pageLimit a c.scanned = true := by
      simp only [pageLimit, hpage, decide_true, Bool.true_and, decide_eq_true_eq]
      exact not_lt.mp (fun hlt => hgo ⟨hopen.1, hopen.2, hlt⟩)
    cases r with
    | nil => rfl
    | cons id r => simp [greedy, ClaimState.pass, hlimit]

/-- **The paging loop is the pass** over what is left of the wait list, and it ends. A round that does not end the loop
examines a whole page, and a page has four entries at least. -/
theorem claimLoop_greedy : ∀ (fuel : Nat) {c : ClaimState} {pre r : List JobId}, Steady a q c →
    (c.store.zsets (.wait q)).members = pre ++ r → c.scanned % (a.batchSize * 4) = 0 → 0 < fuel →
    claimScanLimit ≤ c.scanned + 4 * (fuel - 1) →
    ∃ c', claimLoop a q t fuel pre.length c = some c' ∧ c'.pass = greedy a q t r c.pass
  | 0, _, _, _, _, _, _, hfuel, _ => absurd hfuel (lt_irrefl 0)
  | fuel + 1, c, pre, r, h, hm, hpage, _, hlim => by
    by_cases hgo : c.isOpen ∧ c.taken < a.batchSize ∧ c.scanned < claimScanLimit
    · have hrange : (c.store.zsets (.wait q)).range pre.length (a.batchSize * 4) = r.take (a.batchSize * 4) := by
        rw [ZSet.range, hm, List.drop_left]
      unfold claimLoop
      rw [if_pos hgo]
      dsimp only
      rw [hrange]
      by_cases hnil : r.take (a.batchSize * 4) = []
      · have hr : r = [] := by
          rcases List.take_eq_nil_iff.mp hnil with hz | hr
          · omega
          · exact hr
        exact ⟨c, by rw [if_pos hnil], by rw [hr]; rfl⟩
      · have hstep := @claimSlice_greedy a q t (r.take (a.batchSize * 4)) c pre (r.drop (a.batchSize * 4)) h
          (by rw [hm, List.append_assoc, List.take_append_drop])
          (fun i hi => pageLimit_within hpage (lt_of_lt_of_le hi (List.length_take_le _ _)) hgo.2.2)
        rw [if_neg hnil]
        generalize claimSlice a q t (r.take (a.batchSize * 4)) c = c₁ at hstep ⊢
        have hpass := hstep.pass
        rw [List.take_append_drop] at hpass
        by_cases hshort : (r.take (a.batchSize * 4)).length < a.batchSize * 4
        · -- the last page
          have hr : r.drop (a.batchSize * 4) = [] := by
            rw [List.length_take] at hshort
            exact List.drop_eq_nil_of_le (by omega)
          refine ⟨c₁, by rw [if_pos hshort], ?_⟩
          rw [hpass, hr]
          rfl
        · have hlen : (r.take (a.batchSize * 4)).length = a.batchSize * 4 :=
            le_antisymm (List.length_take_le _ _) (not_lt.mp hshort)
          obtain ⟨l', hl', hsum⟩ := hstep.left
          have hoffset : pre.length + (r.take (a.batchSize * 4)).length - (c₁.taken - c.taken) = (pre ++ l').length := by
            rw [List.length_append]
            omega
          rw [if_neg hshort, hoffset, hpass]
          by_cases hstop : c₁.pass.stopped a q = true
          · -- the next round sees that it is over
            have hover := hstep.steady.stopped_iff.mp hstop
            obtain ⟨fuel, rfl⟩ : ∃ n, fuel = n + 1 := ⟨fuel - 1, by omega⟩
            refine ⟨c₁, ?_, (greedy_stopped hstop _).symm⟩
            unfold claimLoop
            rw [if_neg (fun hg => hover ⟨hg.1, hg.2.1⟩)]
          · have hscan := hstep.scanned.resolve_right hstop
            rw [hlen] at hscan
            exact claimLoop_greedy fuel hstep.steady hl' (by rw [hscan, Nat.add_mod_right, hpage]) (by omega) (by omega)
    · have hend : claimLoop a q t (fuel + 1) pre.length c = some c := by
        unfold claimLoop
        rw [if_neg hgo]
      exact ⟨c, hend, (greedy_over h hpage hgo r).symm⟩

end Page

/-! ## What is left -/

section Left

variable {a : ClaimArgs} {q : String} {t : Option ℤ} {p : Pass} {id : JobId}

/-- An entry that has been examined is not claimable: it is gone, its kind is not listed, or its group is closed. -/
def Settled (a : ClaimArgs) (q : String) (s : Store) (id : JobId) : Prop :=
  id ∉ (s.zsets (.wait q)).members ∨ (s.hash id).listed a = none ∨ Closed s a.now (s.gateKey id)

theorem Settled.not_claimable (h : Settled a q p.store id) : ¬ Claimable a q p.store id := by
  intro hc
  rcases h with hout | hkind | hclosed
  · exact hout hc.waits
  · have := hc.listed
    rw [hkind] at this
    cases this
  · have := hc.free
    rw [hclosed] at this
    cases this

/-- What a visit leaves alone: the other entries, and the closed groups. -/
theorem visit_frame (a : ClaimArgs) (q : String) (t : Option ℤ) (p : Pass) (id : JobId) :
    (∀ j, j ≠ id → ((visit a q t p id).store.cell j) = p.store.cell j) ∧
      (∀ g, Closed p.store a.now g → Closed (visit a q t p id).store a.now g) := by
  have hst := groupGate_store p.store (p.store.gateKey id) a.now
  unfold visit
  dsimp only
  split
  · exact ⟨fun _ _ => rfl, fun _ h => h⟩
  · split
    · next hpass =>
      constructor
      · intro j hj
        rw [startJob_cell_ne _ _ _ _ _ _ hj, hst]
        rfl
      · intro g hg
        have hne : g ≠ p.store.gateKey id := by
          rintro rfl
          rw [hg] at hpass
          cases hpass
        refine hg.congr ?_ ?_
        · rw [startJob_groupMeta, hst]
          simp [hne]
        · rw [startJob_grouprun, if_neg (fun e => hne (given_eq_some.mp e).1.symm), hst]
    · next hstop =>
      constructor
      · intro j _
        rw [hst]
        rfl
      · intro g hg
        by_cases hne : g = p.store.gateKey id
        · rw [hne]
          exact Closed.of_stop (by simpa using hstop)
        · refine hg.congr ?_ (by rw [hst])
          rw [hst]
          simp [hne]

/-- A visit settles its entry. -/
theorem visit_settled (a : ClaimArgs) (q : String) (t : Option ℤ) (p : Pass) (id : JobId) :
    Settled a q (visit a q t p id).store id := by
  have hst := groupGate_store p.store (p.store.gateKey id) a.now
  unfold visit
  dsimp only
  split
  · next hkind => exact Or.inr (Or.inl hkind)
  · split
    · refine Or.inl ?_
      rw [startJob_waitSet, ZSet.members_rem]
      simp
    · next hstop =>
      refine Or.inr (Or.inr ?_)
      have hkey : (groupGate p.store (p.store.gateKey id) a.now).1.gateKey id = p.store.gateKey id := by
        rw [hst]
        rfl
      dsimp only
      rw [hkey]
      exact Closed.of_stop (by simpa using hstop)

/-- What is settled stays so when another entry is visited. -/
theorem Settled.visit {j : JobId} (h : Settled a q p.store j) (hne : j ≠ id) :
    Settled a q (visit a q t p id).store j := by
  obtain ⟨hcell, hclosed⟩ := visit_frame a q t p id
  have hhash : (Redis.visit a q t p id).store.hash j = p.store.hash j := congrArg JobCell.fields (hcell j hne)
  have hscore : (Redis.visit a q t p id).store.zscore (.wait q) j = p.store.zscore (.wait q) j :=
    congrArg (fun x => x.score (.wait q)) (hcell j hne)
  unfold Settled Store.gateKey at h ⊢
  rw [hhash]
  refine h.imp (fun hout hin => hout ?_) (Or.imp_right (hclosed _))
  rw [ZSet.mem_members] at hin ⊢
  exact (congrArg Option.isSome hscore).symm.trans hin

/-- A pass that ends before the batch is full, before the queue is full and before a page limit has settled its list. -/
theorem greedy_settled : ∀ (l : List JobId) {p : Pass}, l.Nodup →
    (greedy a q t l p).stopped a q = false → (greedy a q t l p).examined < claimScanLimit →
    ∀ j, (Settled a q p.store j ∨ j ∈ l) → Settled a q (greedy a q t l p).store j
  | [], _, _, _, _, j, h => h.resolve_right List.not_mem_nil
  | id :: l, p, hnd, hopen, hlim, j, h => by
    rw [List.nodup_cons] at hnd
    by_cases hstop : (p.stopped a q || pageLimit a p.examined) = true
    · have hsame : greedy a q t (id :: l) p = p := by rw [greedy, if_pos hstop]
      rw [hsame] at hopen hlim
      simp [hopen, pageLimit, not_le.mpr hlim] at hstop
    · have hnext : greedy a q t (id :: l) p = greedy a q t l (visit a q t p id) := by rw [greedy, if_neg hstop]
      rw [hnext] at hopen hlim ⊢
      refine greedy_settled l hnd.2 hopen hlim j ?_
      by_cases hj : j = id
      · exact Or.inl (hj ▸ visit_settled a q t p id)
      · refine h.imp (fun h => h.visit hj) (fun h => ?_)
        exact (List.mem_cons.mp h).resolve_left hj

end Left

/-! ## The whole call -/

section Call

variable {s : Store} {a : ClaimArgs} {q : String}

/-- The pass over the wait list of a queue. -/
def claimPass (s : Store) (a : ClaimArgs) (q : String) : Pass :=
  greedy a q (queueTimeout s q) (s.zsets (.wait q)).members { store := s }

/-- The local variables before the loop. -/
def ClaimState.init (s : Store) (q : String) : ClaimState :=
  { store := s, isOpen := (queueGate s q).1, room := (queueGate s q).2 }

/-- The loop of a call ends with the pass. -/
theorem claimLoop_pass (hs : s.Consistent) (a : ClaimArgs) (q : String) (m : Nat) :
    ∃ c, claimLoop a q (queueTimeout s q) (claimScanLimit + m) 0 (.init s q) = some c ∧ c.pass = claimPass s a q := by
  have hzero : (ClaimState.init s q).scanned % (a.batchSize * 4) = 0 := Nat.zero_mod _
  refine @claimLoop_greedy a q (queueTimeout s q) (claimScanLimit + m) (.init s q) [] _ (Steady.start hs q) rfl hzero ?_ ?_
  · unfold claimScanLimit
    omega
  · unfold claimScanLimit
    omega

/-- A call on one queue answers the pass. -/
theorem fnClaim_pass (hs : s.Consistent) (hq : a.queues = [q]) :
    fnClaim s a = ((claimPass s a q).store, (claimPass s a q).claimed) := by
  obtain ⟨c, hloop, hpass⟩ := claimLoop_pass hs a q 0
  rw [fnClaim, hq, claimQueues]
  split
  · next hsize =>
    have hstop : Pass.stopped a q { store := s } = true := by simpa [Pass.stopped] using Or.inl hsize
    rw [claimPass, greedy_stopped hstop]
  · dsimp only [claimQueues]
    rw [← hpass]
    have hpages := claimPages_of_loop hloop
    unfold ClaimState.init at hpages
    rw [Nat.add_zero] at hpages
    rw [hpages]
    rfl

end Call

end Eddyq.Redis
