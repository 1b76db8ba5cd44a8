import Eddyq.Redis.System
import Mathlib.Algebra.Order.Field.Rat
import Mathlib.Tactic.Linarith

/-!
# The gates and loops of a claim

`queueGate` is read once for a queue, `groupGate` again for every candidate. `Gated` lists what the latter can do: let a
job pass, stop it at the pause, the cap or the empty bucket, and write the bucket back. The limits of a group never change
(`SameLimits`); within a call the clock stands still, so that the bucket is filled up once and every job that passes takes
one token out of it (`Budget.pass`). `EntryStep` lists what the innermost loop does with a candidate, and `fnClaim_rule` is
the induction over the three loops.
-/

namespace Eddyq.Redis

open Eddyq.Lib

/-! ## The bucket -/

/-- The limits of a group, without its bucket. -/
structure GroupView.SameLimits (m m' : GroupView) : Prop where
  maxConcurrency : m'.maxConcurrency = m.maxConcurrency
  paused : m'.paused = m.paused
  rateCount : m'.rateCount = m.rateCount
  ratePeriodMs : m'.ratePeriodMs = m.ratePeriodMs

theorem refillTokens_sameLimits (m : GroupView) (now : ℤ) : m.SameLimits (refillTokens m now) := by
  unfold refillTokens
  split
  · exact ⟨rfl, rfl, rfl, rfl⟩
  · exact ⟨rfl, rfl, rfl, rfl⟩

/-- A bucket that has been filled up at `now` and then lost tokens is not filled up again. -/
theorem refillTokens_again (m : GroupView) (now : ℤ) {t : ℚ} (ht : t ≤ (refillTokens m now).tokens) :
    (refillTokens { refillTokens m now with tokens := t } now).tokens = t := by
  by_cases h : m.rateCount < 0 ∨ m.ratePeriodMs ≤ 0
  · have hm : refillTokens m now = m := if_pos h
    rw [hm]
    unfold refillTokens
    rw [if_pos h]
  · have hm : refillTokens m now = { m with
        tokens := min (m.rateCount : ℚ) (m.tokens + (max (now - m.refilledAt) 0 * m.rateCount : ℤ) / (m.ratePeriodMs : ℚ))
        refilledAt := now } := if_neg h
    have hrate : t ≤ m.rateCount := by
      rw [hm] at ht
      dsimp only at ht
      exact ht.trans inf_le_left
    rw [hm]
    unfold refillTokens
    rw [if_neg h]
    simp [hrate]

/-- The metadata of a group after `persist_tokens`. -/
theorem readGroupMeta_persist {s : Store} {g : String} {m m' : GroupView} (hm : readGroupMeta s g = some m)
    (hl : m.SameLimits m') : readGroupMeta (persistTokens s g m') g = some m' := by
  obtain ⟨h1, h2, h3, h4⟩ := hl
  unfold readGroupMeta at hm ⊢
  unfold persistTokens
  simp only [Function.update_self]
  dsimp only at hm
  by_cases hg : g = ""
  · rw [if_pos hg] at hm
    cases hm
  · rw [if_neg hg] at hm ⊢
    split at hm
    · cases hm
    · next hset =>
      cases hm
      rw [if_neg hset]
      cases m'
      simp_all

theorem readGroupMeta_persist_ne {s : Store} {g g' : String} (m : GroupView) (h : g' ≠ g) :
    readGroupMeta (persistTokens s g m) g' = readGroupMeta s g' := by
  unfold readGroupMeta persistTokens
  simp only [Function.update_of_ne h]

/-! ## The gate of a group -/

/-- What `groupGate` does. -/
inductive Gated (s : Store) (g : String) (now : ℤ) : Store → Bool → Prop
  /-- There is no limit. -/
  | free (h : ∀ m, readGroupMeta s g = some m → ¬ groupHasLimits m) : Gated s g now s true
  /-- The group is paused or full. -/
  | closed {m : GroupView} (h : readGroupMeta s g = some m) : Gated s g now s false
  /-- There is no whole token. -/
  | dry {m : GroupView} (h : readGroupMeta s g = some m) (rate : 0 ≤ m.rateCount) :
      Gated s g now (persistTokens s g (refillTokens m now)) false
  /-- There is, and it is taken. -/
  | paid {m : GroupView} (h : readGroupMeta s g = some m) (live : m.paused = false)
      (room : 0 ≤ m.maxConcurrency → ((s.zsets (.grouprun g)).card : ℤ) < m.maxConcurrency) (rate : 0 ≤ m.rateCount)
      (token : 1 ≤ (refillTokens m now).tokens) :
      Gated s g now (persistTokens s g { refillTokens m now with tokens := (refillTokens m now).tokens - 1 }) true
  /-- There is room and no rate limit. -/
  | roomy {m : GroupView} (h : readGroupMeta s g = some m) (live : m.paused = false)
      (room : 0 ≤ m.maxConcurrency → ((s.zsets (.grouprun g)).card : ℤ) < m.maxConcurrency) (rate : m.rateCount < 0) :
      Gated s g now s true

theorem groupGate_gated (s : Store) (g : String) (now : ℤ) :
    Gated s g now (groupGate s g now).1 (groupGate s g now).2 := by
  unfold groupGate
  split
  · next hnone => exact .free fun m hm => by rw [hnone] at hm; cases hm
  · next m hm =>
    dsimp only
    split
    · next hno =>
      refine .free fun m' hm' => ?_
      rw [hm, Option.some.injEq] at hm'
      exact hm' ▸ hno
    split
    · exact .closed hm
    next hlive =>
    split
    · exact .closed hm
    next hfull =>
    have hlive : m.paused = false := by simpa using hlive
    have hroom : 0 ≤ m.maxConcurrency → ((s.zsets (.grouprun g)).card : ℤ) < m.maxConcurrency := by
      intro hc
      exact not_le.mp fun hle => hfull ⟨hc, hle⟩
    split
    · next hrate =>
      split
      · exact .dry hm hrate
      · next htok => exact .paid hm hlive hroom hrate (not_lt.mp htok)
    · next hrate => exact .roomy hm hlive hroom (not_le.mp hrate)

section Gate

variable {s₀ s s' : Store} {g : String} {now : ℤ} {b : Bool}

/-- The gate writes group metadata and nothing else. -/
theorem Gated.store_eq (h : Gated s g now s' b) : ∃ gm, s' = { s with groupMeta := gm } := by
  cases h with
  | free | closed | roomy => exact ⟨s.groupMeta, rfl⟩
  | dry | paid => exact ⟨_, rfl⟩

/-- Who passes found the group neither paused nor full. -/
theorem Gated.passed (h : Gated s g now s' true) {m : GroupView} (hm : readGroupMeta s g = some m) :
    m.paused = false ∧ (0 ≤ m.maxConcurrency → ((s.zsets (.grouprun g)).card : ℤ) < m.maxConcurrency) := by
  cases h with
  | free hno =>
    have hlim := hno m hm
    simp only [groupHasLimits, Bool.or_eq_true, decide_eq_true_eq, not_or, Bool.not_eq_true] at hlim
    exact ⟨hlim.1.1, fun hc => absurd hc hlim.1.2⟩
  | paid hm' live room | roomy hm' live room =>
    rw [hm', Option.some.injEq] at hm
    exact hm ▸ ⟨live, room⟩

/-- The limits of the groups are those of the first store. -/
def SameLimits (s₀ s : Store) : Prop := ∀ g,
  (readGroupMeta s₀ g = none ∧ readGroupMeta s g = none) ∨
    ∃ m₀ m, readGroupMeta s₀ g = some m₀ ∧ readGroupMeta s g = some m ∧ m₀.SameLimits m

theorem readGroupMeta_congr (h : s'.groupMeta = s.groupMeta) : readGroupMeta s' = readGroupMeta s := by
  funext g
  rw [readGroupMeta, readGroupMeta, h]

theorem SameLimits.congr (hs : SameLimits s₀ s) (h : s'.groupMeta = s.groupMeta) : SameLimits s₀ s' := by
  unfold SameLimits
  rw [readGroupMeta_congr h]
  exact hs

theorem SameLimits.refl (s : Store) : SameLimits s s := by
  intro g
  cases hm : readGroupMeta s g with
  | none => exact Or.inl ⟨rfl, rfl⟩
  | some m => exact Or.inr ⟨m, m, rfl, rfl, ⟨rfl, rfl, rfl, rfl⟩⟩

theorem SameLimits.of_some (h : SameLimits s₀ s) {m : GroupView} (hm : readGroupMeta s g = some m) :
    ∃ m₀, readGroupMeta s₀ g = some m₀ ∧ m₀.SameLimits m := by
  rcases h g with ⟨_, hnone⟩ | ⟨m₀, m', hm₀, hm', hl⟩
  · rw [hnone] at hm
    cases hm
  · rw [hm', Option.some.injEq] at hm
    exact ⟨m₀, hm₀, hm ▸ hl⟩

theorem SameLimits.persist (h : SameLimits s₀ s) {m m' : GroupView} (hm : readGroupMeta s g = some m)
    (hl : m.SameLimits m') : SameLimits s₀ (persistTokens s g m') := by
  intro x
  by_cases hx : x = g
  · subst hx
    obtain ⟨m₀, hm₀, h₀⟩ := h.of_some hm
    refine Or.inr ⟨m₀, m', hm₀, readGroupMeta_persist hm hl, ?_⟩
    exact ⟨hl.1.trans h₀.1, hl.2.trans h₀.2, hl.3.trans h₀.3, hl.4.trans h₀.4⟩
  · rw [readGroupMeta_persist_ne m' hx]
    exact h x

theorem SameLimits.gate (h : SameLimits s₀ s) (hg : Gated s g now s' b) : SameLimits s₀ s' := by
  cases hg with
  | free | closed | roomy => exact h
  | dry hm => exact h.persist hm (refillTokens_sameLimits _ now)
  | @paid m hm =>
    obtain ⟨h1, h2, h3, h4⟩ := refillTokens_sameLimits m now
    exact h.persist hm ⟨h1, h2, h3, h4⟩

/-! ## The bucket within one call -/

/-- `k` tokens have been taken out of the bucket of a rate-limited group: what was available at `now` is what is left and
these `k`. -/
def Budget (now : ℤ) (s₀ s : Store) (g : String) (k : Nat) : Prop :=
  ∀ m₀, readGroupMeta s₀ g = some m₀ → 0 ≤ m₀.rateCount → ∃ m, readGroupMeta s g = some m ∧
    (refillTokens m now).tokens + k = (refillTokens m₀ now).tokens ∧
    (0 < k → m.tokens = (refillTokens m now).tokens ∧ (k : ℚ) ≤ (refillTokens m₀ now).tokens)

theorem Budget.refl (now : ℤ) (s : Store) (g : String) : Budget now s s g 0 :=
  fun m hm _ => ⟨m, hm, by simp, nofun⟩

theorem Budget.congr {k : Nat} (hb : Budget now s₀ s g k) (h : s'.groupMeta = s.groupMeta) : Budget now s₀ s' g k := by
  unfold Budget
  rw [readGroupMeta_congr h]
  exact hb

/-- A group that is not looked at keeps its bucket. -/
theorem Budget.other {x : String} {k : Nat} (h : Budget now s₀ s x k) (hx : x ≠ g) (m : GroupView) :
    Budget now s₀ (persistTokens s g m) x k := by
  intro m₀ hm₀ hr₀
  obtain ⟨m', hm', hrest⟩ := h m₀ hm₀ hr₀
  exact ⟨m', (readGroupMeta_persist_ne m hx).trans hm', hrest⟩

/-- A candidate that is stopped takes no token. -/
theorem Budget.stop {x : String} {k : Nat} (h : Budget now s₀ s x k) (hg : Gated s g now s' false) :
    Budget now s₀ s' x k := by
  cases hg with
  | closed => exact h
  | @dry m hm =>
    by_cases hx : x = g
    · subst hx
      intro m₀ hm₀ hr₀
      obtain ⟨m', hm', hsum, hk⟩ := h m₀ hm₀ hr₀
      rw [hm, Option.some.injEq] at hm'
      subst hm'
      have hagain : (refillTokens (refillTokens m now) now).tokens = (refillTokens m now).tokens :=
        refillTokens_again m now (t := (refillTokens m now).tokens) le_rfl
      refine ⟨refillTokens m now, readGroupMeta_persist hm (refillTokens_sameLimits m now), ?_, fun hpos => ?_⟩
      · rw [hagain]
        exact hsum
      · exact ⟨hagain.symm, (hk hpos).2⟩
    · exact h.other hx _

/-- A candidate that passes takes one token of its group. -/
theorem Budget.pass {x : String} {k : Nat} (h : Budget now s₀ s x k) (hl : SameLimits s₀ s)
    (hg : Gated s g now s' true) : Budget now s₀ s' x (if x = g then k + 1 else k) := by
  -- where the group is not rate-limited there is nothing to count
  have hunlimited : s' = s → (∀ m, readGroupMeta s g = some m → m.rateCount < 0) →
      Budget now s₀ s' x (if x = g then k + 1 else k) := by
    rintro rfl hno
    split
    · next hx =>
      subst hx
      intro m₀ hm₀ hr₀
      obtain ⟨m, hm, _⟩ := h m₀ hm₀ hr₀
      obtain ⟨m₁, hm₁, hsame⟩ := hl.of_some hm
      rw [hm₀, Option.some.injEq] at hm₁
      subst hm₁
      have hneg := hno m hm
      rw [hsame.rateCount] at hneg
      omega
    · exact h
  cases hg with
  | free hno =>
    refine hunlimited rfl fun m hm => ?_
    have := hno m hm
    simp only [groupHasLimits, Bool.or_eq_true, decide_eq_true_eq, not_or] at this
    omega
  | roomy hm _ _ hr =>
    refine hunlimited rfl fun m' hm' => ?_
    rw [hm, Option.some.injEq] at hm'
    exact hm' ▸ hr
  | @paid m hm _ _ _ htok =>
    split
    · next hx =>
      subst hx
      intro m₀ hm₀ hr₀
      obtain ⟨m', hm', hsum, _⟩ := h m₀ hm₀ hr₀
      rw [hm, Option.some.injEq] at hm'
      subst hm'
      have hagain := refillTokens_again m now (t := (refillTokens m now).tokens - 1) (by linarith)
      obtain ⟨h1, h2, h3, h4⟩ := refillTokens_sameLimits m now
      refine ⟨_, readGroupMeta_persist hm ⟨h1, h2, h3, h4⟩, ?_, fun _ => ⟨hagain.symm, ?_⟩⟩
      · rw [hagain]
        push_cast
        linarith
      · push_cast
        linarith
    · next hx => exact h.other hx _

end Gate

/-! ## One candidate -/

/-- What the loop does with a candidate. -/
inductive EntryStep (a : ClaimArgs) (queue : String) (t : Option ℤ) (c : ClaimState) (id : JobId) : ClaimState → Prop
  /-- It is passed over. -/
  | skip {blocked : List String} {scanned : Nat} : EntryStep a queue t c id { c with blocked := blocked, scanned := scanned }
  /-- Its group stops it. -/
  | stop {s : Store} {blocked : List String} {scanned : Nat}
      (gate : Gated c.store ((c.store.hash id).groupKey.getD "") a.now s false) :
      EntryStep a queue t c id { c with store := s, blocked := blocked, scanned := scanned }
  /-- It is no longer in the wait set. -/
  | gone {s : Store} {scanned : Nat} (gate : Gated c.store ((c.store.hash id).groupKey.getD "") a.now s true)
      (pending : c.store.state id = some .pending) (out : s.zscore (.wait queue) id = none) :
      EntryStep a queue t c id { c with store := s, scanned := scanned }
  /-- It is started. -/
  | start {s : Store} {kind : String} {scanned : Nat} (size : c.out.length < a.batchSize) (isOpen : c.isOpen = true)
      (hkind : (c.store.hash id).kind = some kind) (listed : kind ∈ a.kinds) (pending : c.store.state id = some .pending)
      (gate : Gated c.store ((c.store.hash id).groupKey.getD "") a.now s true)
      (waits : (s.zscore (.wait queue) id).isSome) :
      EntryStep a queue t c id { c with
        scanned := scanned
        store := startJob s a queue id ((c.store.hash id).attempt.getD 0 + 1) (given (c.store.hash id).groupKey)
        out := c.out ++ [claimReply (c.store.hash id) a id kind t]
        room := c.room.map (· - 1)
        isOpen := c.isOpen && (c.room.map (· - 1)).all (0 < ·) }

theorem claimEntry_step (a : ClaimArgs) (queue : String) (t : Option ℤ) (c : ClaimState) (id : JobId) :
    EntryStep a queue t c id (claimEntry a queue t c id).1 := by
  have hg := groupGate_gated c.store ((c.store.hash id).groupKey.getD "") a.now
  unfold claimEntry
  split
  · exact .skip
  next hgo =>
  dsimp only
  split
  · exact .skip
  next kind hkind =>
  split
  · exact .skip
  next hok =>
  obtain ⟨hk, hok⟩ := not_or.mp hok
  obtain ⟨hp, _⟩ := not_or.mp hok
  split
  · next s he =>
    rw [he] at hg
    exact .stop hg
  · next s he =>
    rw [he] at hg
    split
    · next hw => exact .gone hg (not_not.mp hp) (Option.isNone_iff_eq_none.mp hw)
    · next hw =>
      obtain ⟨hsize, hopen⟩ := not_or.mp hgo
      exact .start (not_le.mp hsize) (not_not.mp hopen) hkind (not_not.mp hk) (not_not.mp hp) hg
        (Option.isSome_iff_ne_none.mpr fun he => hw (by rw [he]; rfl))

/-! ## The loops -/

section Loops

variable {a : ClaimArgs}

/-- What every page keeps, the scan of a queue keeps. -/
theorem claimPages_rule {P : ClaimState → Prop} {queue : String} {t : Option ℤ}
    (slice : ∀ c offset n, P c → P (claimSlice a queue t ((c.store.zsets (.wait queue)).range offset n) c)) :
    ∀ (fuel offset : Nat) {c : ClaimState}, P c → P (claimPages a queue t fuel offset c)
  | 0, _, _, h => h
  | fuel + 1, offset, c, h => by
    unfold claimPages
    split
    · dsimp only
      split
      · exact h
      · have hslice := slice c offset (a.batchSize * 4) h
        split
        · exact hslice
        · exact claimPages_rule slice fuel _ hslice
    · exact h

/-- What the scan of every queue keeps, the loop over the queues keeps. -/
theorem claimQueues_rule {P : Store → List ClaimedJob → Prop} : ∀ (qs : List String) {s : Store} {out : List ClaimedJob},
    (∀ q ∈ qs, ∀ s out, P s out →
      let c := claimPages a q (queueTimeout s q) claimScanLimit 0
        { store := s, out := out, isOpen := (queueGate s q).1, room := (queueGate s q).2 }
      P c.store c.out) →
    P s out → P (claimQueues a qs s out).1 (claimQueues a qs s out).2
  | [], _, _, _, h => h
  | q :: qs, s, out, pages, h => by
    unfold claimQueues
    split
    · exact h
    · exact claimQueues_rule qs (fun x hx => pages x (List.mem_cons_of_mem _ hx)) (pages q List.mem_cons_self s out h)

/-- **The rule of a claim**: what every candidate keeps, the call keeps. -/
theorem fnClaim_rule {P : Store → List ClaimedJob → Prop} {s : Store} (h : P s [])
    (entry : ∀ {queue t c id c'}, EntryStep a queue t c id c' → P c.store c.out → P c'.store c'.out) :
    P (fnClaim s a).1 (fnClaim s a).2 := by
  refine claimQueues_rule a.queues (fun q _ s out h => ?_) h
  refine claimPages_rule (P := fun c => P c.store c.out) (fun c offset n hc => ?_) _ _ h
  exact forEach_inv (P := fun c : ClaimState => P c.store c.out) hc
    (fun c id _ hc => entry (claimEntry_step a q _ c id) hc)

/-- A claim stops at its batch size. -/
theorem fnClaim_length (s : Store) (a : ClaimArgs) : (fnClaim s a).2.length ≤ a.batchSize := by
  refine fnClaim_rule (P := fun _ out => out.length ≤ a.batchSize) (Nat.zero_le _) (fun he hlen => ?_)
  cases he with
  | start size =>
    rw [List.length_append, List.length_singleton]
    exact size
  | _ => exact hlen

end Loops

end Eddyq.Redis
