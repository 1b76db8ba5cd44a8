import Eddyq.Lib.Buckets
import Eddyq.Redis.ClaimSafety
import Eddyq.Redis.Frames

/-!
# Rate limits over runs

The bucket of a group is written by `set_rate`, and then by every claim that looks at it: a claim fills it up to its own
clock and stores that clock, also when it is refused. `Metered` is the bucket the store has, `Rated` the runs between two
calls of `set_rate`, with the times of the jobs started.

The stored tokens are always between zero and the rate. As long as no claim has a clock behind the stored one, the bucket
is one of `Lib.Buckets`, and the starts are bounded by the rate (`Rated.kept`). A claim with an earlier clock moves the
stored time back, and the next one fills the same interval again.
-/

namespace Eddyq.Redis

open Eddyq.Lib

/-! ## The bucket in the store -/

/-- The group has that rate and that bucket. -/
structure Store.Metered (s : Store) (g : String) (r p : ℤ) (b : Bucket) : Prop where
  rateCount : (s.groupMeta g).rateCount = some r
  ratePeriodMs : (s.groupMeta g).ratePeriodMs = some p
  tokens : (s.groupMeta g).tokens = some b.tokens
  since : (s.groupMeta g).tokensRefilledAtMs = some b.since

/-- The call writes neither the rate of the group nor its bucket; claims are looked at on their own. -/
def Op.sparesRate (g : String) : Op → Bool
  | .claim _ => false
  | .groupSetRate key .. | .groupClearRate key => key ≠ g
  | _ => true

section Metered

variable {s s' : Store} {g : String} {r p : ℤ} {b : Bucket} {now : ℤ}

theorem Store.Metered.congr (h : s.Metered g r p b) (hm : s'.groupMeta g = s.groupMeta g) : s'.Metered g r p b :=
  ⟨hm ▸ h.rateCount, hm ▸ h.ratePeriodMs, hm ▸ h.tokens, hm ▸ h.since⟩

theorem Store.Metered.onJobs (h : s.Metered g r p b) (ho : OnJobs s s') : s'.Metered g r p b :=
  h.congr (congrFun ho.groupMeta g)

theorem metered_setRate (s : Store) (g : String) (r p now : ℤ) : (fnGroupSetRate s g r p now).Metered g r p ⟨r, now⟩ := by
  constructor <;> simp [fnGroupSetRate, setGroupMeta]

/-- A group with a rate is not seeded from a rule. -/
theorem Store.Metered.materialize (h : s.Metered g r p b) (key : String) (now : ℤ) :
    (maybeMaterializeGroup s key now).Metered g r p b := by
  unfold maybeMaterializeGroup
  split
  · exact h
  split
  · exact h
  next hnew =>
  split
  · exact h
  split
  · exact h
  · refine h.congr (Function.update_of_ne (fun he => ?_) _ _)
    subst he
    have hrate := h.rateCount
    rw [not_not.mp hnew] at hrate
    cases hrate

theorem Store.Metered.insertJob (h : s.Metered g r p b) (a : EnqueueArgs) (id : JobId) (now : ℤ) :
    (insertJob s a id now).Metered g r p b := by
  have hsadd : ∀ (ks : List SKey) {s : Store}, s.Metered g r p b → (saddAll s ks id).Metered g r p b := by
    intro ks
    induction ks with
    | nil => intro s h; exact h
    | cons k ks ih => intro s h; exact ih (h.congr rfl)
  unfold Redis.insertJob
  dsimp only
  generalize hs₁ : ({ ((s.hset id (a.toHash id now)).sadd (.queueset a.queue) id).sadd (.kindset a.kind) id with
    queuesSeen := _ } : Store) = s₁
  have h₁ : s₁.Metered g r p b := by
    rw [← hs₁]
    exact h.congr rfl
  have h₂ := hsadd (a.tags.map .tagset) (h₁.materialize a.groupKey now)
  split
  · exact h₂.congr rfl
  · exact h₂.congr rfl

theorem Store.Metered.enqueue (h : s.Metered g r p b) (a : EnqueueArgs) (now : ℤ) :
    (fnEnqueue s a now).1.Metered g r p b := by
  unfold fnEnqueue
  split
  · exact h
  · dsimp only
    refine Store.Metered.insertJob ?_ a _ now
    split
    · exact h.congr rfl
    · exact h.congr rfl

theorem Store.Metered.enqueueMany : ∀ (as : List EnqueueArgs) (now : ℤ) {s : Store}, s.Metered g r p b →
    (fnEnqueueMany s as now).1.Metered g r p b
  | [], _, _, h => h
  | a :: as, now, _, h => enqueueMany as now (h.enqueue a now)

theorem Store.Metered.setSchedule (h : s.Metered g r p b) (name : String) (e : ScheduleEntry) :
    (s.setSchedule name e).Metered g r p b := by
  obtain ⟨l, hl⟩ := setSchedule_eq s name e
  rw [hl]
  exact h.congr rfl

theorem Store.Metered.scheduleFire (h : s.Metered g r p b) (a : FireArgs) : (fnScheduleFire s a).1.Metered g r p b := by
  unfold fnScheduleFire
  split
  · exact h
  · have hs : ({ s with idgen := s.idgen + 1 } : Store).Metered g r p b := h.congr rfl
    have hset := fun e => (hs.insertJob a.toEnqueue (s.idgen + 1) a.now).setSchedule a.name e
    exact (hset _).congr rfl

theorem Store.Metered.scheduleSetEnabled (h : s.Metered g r p b) (name : String) (enabled next : ℤ) :
    (fnScheduleSetEnabled s name enabled next).1.Metered g r p b := by
  unfold fnScheduleSetEnabled
  split
  · exact h
  split
  · refine Store.Metered.setSchedule ?_ name _
    exact h.congr rfl
  · refine Store.Metered.setSchedule ?_ name _
    exact h.congr rfl

/-- The other fields of the group's metadata. -/
theorem Store.Metered.setGroupMeta (h : s.Metered g r p b) (key : String) {f : GroupMeta → GroupMeta}
    (hf : ∀ m, (f m).rateCount = m.rateCount ∧ (f m).ratePeriodMs = m.ratePeriodMs ∧ (f m).tokens = m.tokens ∧
      (f m).tokensRefilledAtMs = m.tokensRefilledAtMs) : (setGroupMeta s key f).Metered g r p b := by
  by_cases hk : g = key
  · subst hk
    obtain ⟨h1, h2, h3, h4⟩ := hf (s.groupMeta g)
    constructor <;> simp only [Redis.setGroupMeta, Function.update_self]
    · exact h1.trans h.rateCount
    · exact h2.trans h.ratePeriodMs
    · exact h3.trans h.tokens
    · exact h4.trans h.since
  · exact h.congr (Function.update_of_ne hk _ _)

/-- **The calls other than claims** leave the bucket alone. -/
theorem Store.Metered.apply (h : s.Metered g r p b) : ∀ op : Op, op.sparesRate g = true → (op.apply s).Metered g r p b
  | .enqueue a now, _ => h.enqueue a now
  | .enqueueMany as now, _ => h.enqueueMany as now
  | .claim _, ho => nomatch ho
  | .heartbeat now ids, _ => h.onJobs (Op.apply_onJobs s (.heartbeat now ids) rfl)
  | .complete id w now result, _ => h.onJobs (Op.apply_onJobs s (.complete id w now result) rfl)
  | .fail id w now error retryAt, _ => h.onJobs (Op.apply_onJobs s (.fail id w now error retryAt) rfl)
  | .sweepStale t n, _ => h.onJobs (Op.apply_onJobs s (.sweepStale t n) rfl)
  | .promoteDelayed now n, _ => h.onJobs (Op.apply_onJobs s (.promoteDelayed now n) rfl)
  | .reclaimInFlight now ids, _ => h.onJobs (Op.apply_onJobs s (.reclaimInFlight now ids) rfl)
  | .cancel id now, _ => h.onJobs (Op.apply_onJobs s (.cancel id now) rfl)
  | .cleanup a, _ => h.onJobs (Op.apply_onJobs s (.cleanup a) rfl)
  | .scheduleUpsert a, _ => by
    have hset := fun e => h.setSchedule a.name e
    show (fnScheduleUpsert s a).Metered g r p b
    unfold fnScheduleUpsert
    dsimp only
    split
    · exact (hset _).congr rfl
    · exact (hset _).congr rfl
  | .scheduleRemove _, _ => h.congr rfl
  | .scheduleSetEnabled name e next, _ => h.scheduleSetEnabled name e next
  | .scheduleFire a, _ => h.scheduleFire a
  | .groupSetConcurrency key max, _ =>
    h.setGroupMeta key (f := fun m => { m with maxConcurrency := some max }) (fun _ => ⟨rfl, rfl, rfl, rfl⟩)
  | .groupSetPaused key x, _ =>
    h.setGroupMeta key (f := fun m => { m with paused := some x }) (fun _ => ⟨rfl, rfl, rfl, rfl⟩)
  | .groupSetRate key .., ho =>
    h.congr (Function.update_of_ne (fun he => absurd he.symm (of_decide_eq_true ho)) _ _)
  | .groupClearRate key, ho =>
    h.congr (Function.update_of_ne (fun he => absurd he.symm (of_decide_eq_true ho)) _ _)
  | .groupSetRule .., _ => by
    refine h.congr ?_
    show (fnGroupSetRule s _ _).groupMeta g = s.groupMeta g
    unfold fnGroupSetRule
    split <;> rfl
  | .groupRemoveRule _, _ => h.congr rfl
  | .queueSetConcurrency .., _ => h.congr rfl
  | .queueSetPaused .., _ => h.congr rfl
  | .queueSetTimeout name t, _ => by
    refine h.congr ?_
    show (fnQueueSetTimeout s name t).groupMeta g = s.groupMeta g
    unfold fnQueueSetTimeout
    split <;> rfl

/-! ## The bucket at the gate -/

/-- What `read_group_meta` shows of the bucket. -/
theorem Store.Metered.view (h : s.Metered g r p b) {m : GroupView} (hm : readGroupMeta s g = some m) :
    m.rateCount = r ∧ m.ratePeriodMs = p ∧ m.tokens = b.tokens ∧ m.refilledAt = b.since := by
  unfold readGroupMeta at hm
  split at hm
  · cases hm
  dsimp only at hm
  split at hm
  · cases hm
  · cases hm
    simp [h.rateCount, h.ratePeriodMs, h.tokens, h.since]

/-- A refill brings the bucket to its level. -/
theorem Store.Metered.refill (hr : 0 < r) (hp : 0 < p) (h : s.Metered g r p b) {m : GroupView}
    (hm : readGroupMeta s g = some m) (now : ℤ) :
    (refillTokens m now).tokens = b.level r p now ∧ (refillTokens m now).refilledAt = now := by
  obtain ⟨h1, h2, h3, h4⟩ := h.view hm
  have hno : ¬ (m.rateCount < 0 ∨ m.ratePeriodMs ≤ 0) := by omega
  unfold refillTokens
  rw [if_neg hno, h1, h2, h3, h4]
  refine ⟨?_, rfl⟩
  simp only [Bucket.level, Int.cast_mul]
  exact min_comm _ _

/-- The bucket that is written back. -/
theorem Store.Metered.persist (h : s.Metered g r p b) {m : GroupView} {b' : Bucket} (htokens : m.tokens = b'.tokens)
    (hsince : m.refilledAt = b'.since) : (persistTokens s g m).Metered g r p b' := by
  constructor <;> simp only [persistTokens, Function.update_self]
  · exact h.rateCount
  · exact h.ratePeriodMs
  · rw [htokens]
  · rw [hsince]

/-- **The gate** leaves the bucket alone or draws from it: one token when the job passes, none when it is stopped. A job
of the group does not pass without. -/
theorem Store.Metered.gate (hr : 0 < r) (hp : 0 < p) (h : s.Metered g r p b) (h₀ : 0 ≤ b.tokens) {x : String} {ok : Bool}
    (hg : Gated s x now s' ok) :
    (s'.Metered g r p b ∧ ¬ (ok = true ∧ x = g ∧ g ≠ "")) ∨
      ∃ k : ℕ, k = (if ok then 1 else 0) ∧ (k : ℚ) ≤ b.level r p now ∧ s'.Metered g r p ⟨b.level r p now - k, now⟩ := by
  by_cases hx : x = g
  · subst hx
    cases hg with
    | free hno =>
      refine .inl ⟨h, fun hpass => ?_⟩
      have hne := hpass.2.2
      -- the metadata of a named group with a rate is there, and has a limit
      cases hm : readGroupMeta s x with
      | none =>
        unfold readGroupMeta at hm
        simp [hne, h.rateCount] at hm
      | some m =>
        have hlim := hno m hm
        simp only [groupHasLimits, Bool.or_eq_true, decide_eq_true_eq, not_or] at hlim
        have hrate := (h.view hm).1
        omega
    | closed => exact .inl ⟨h, fun hpass => Bool.false_ne_true hpass.1⟩
    | @dry m hm _ =>
      obtain ⟨htokens, hat⟩ := h.refill hr hp hm now
      refine .inr ⟨0, rfl, ?_, ?_⟩
      · rw [Nat.cast_zero]
        exact Bucket.level_nonneg (by exact_mod_cast hr.le) (by exact_mod_cast hp.le) h₀
      · refine h.persist ?_ hat
        rw [htokens, Nat.cast_zero, sub_zero]
    | @paid m hm _ _ _ token =>
      obtain ⟨htokens, hat⟩ := h.refill hr hp hm now
      refine .inr ⟨1, rfl, ?_, ?_⟩
      · rw [← htokens, Nat.cast_one]
        exact token
      · refine h.persist ?_ hat
        rw [htokens, Nat.cast_one]
    | roomy hm _ _ rate =>
      have hrate := (h.view hm).1
      omega
  · refine .inl ⟨?_, fun hh => hx hh.2.1⟩
    cases hg with
    | free | closed | roomy => exact h
    | dry | paid => exact h.congr (Function.update_of_ne (fun he => hx he.symm) _ _)

end Metered

/-! ## Runs -/

/-- The store, the clocks of `set_rate` and of the claims since then, and the times at which jobs of the group were
started. -/
structure Rated where
  store : Store
  clocks : List ℤ
  started : List ℤ

section Rated

variable (g : String) (r p : ℤ) (careful : Prop)

/-- One call. The guard named `ok` is asked of careful runs only: the clock of a claim is not behind the last refill. -/
inductive Rated.Step : Rated → Rated → Prop
  | claim {z : Rated} (a : ClaimArgs) (ok : careful → ∀ t, (z.store.groupMeta g).tokensRefilledAtMs = some t → t ≤ a.now) :
      Step z { store := (fnClaim z.store a).1, clocks := a.now :: z.clocks
               started := List.replicate ((fnClaim z.store a).2.countP (·.groupKey = some g)) a.now ++ z.started }
  | other {z : Rated} (op : Op) (spares : op.sparesRate g = true) : Step z { z with store := op.apply z.store }

/-- The runs that follow a call of `set_rate`. -/
def Rated.Reached (z : Rated) : Prop :=
  ∃ s t, Reach (fun z (_ : Unit) z' => Rated.Step g careful z z') ⟨fnGroupSetRate s g r p t, [t], []⟩ z

variable {g r p careful} {z z' : Rated}

/-- One candidate: the bucket is left alone, or one draw is made; the job of the group that starts has its token. -/
theorem EntryStep.draws (hr : 0 < r) (hp : 0 < p) {a : ClaimArgs} {queue : String} {t : Option ℤ} {c c' : ClaimState}
    {id : JobId} {b : Bucket} (he : EntryStep a queue t c id c') (h : c.store.Metered g r p b) (h₀ : 0 ≤ b.tokens) :
    ∃ n : ℕ, c'.out.countP (·.groupKey = some g) = c.out.countP (·.groupKey = some g) + n ∧
      ((n = 0 ∧ c'.store.Metered g r p b) ∨
        ∃ k : ℕ, n ≤ k ∧ (k : ℚ) ≤ b.level r p a.now ∧ c'.store.Metered g r p ⟨b.level r p a.now - k, a.now⟩) := by
  cases he with
  | skip => exact ⟨0, rfl, .inl ⟨rfl, h⟩⟩
  | stop gate | gone gate =>
    rcases h.gate hr hp h₀ gate with ⟨h', _⟩ | ⟨k, _, hk, h'⟩
    · exact ⟨0, rfl, .inl ⟨rfl, h'⟩⟩
    · exact ⟨0, rfl, .inr ⟨k, Nat.zero_le k, hk, h'⟩⟩
  | @start s kind _ _ _ _ _ _ gate _ =>
    have hcount : (c.out ++ [claimReply (c.store.hash id) a id kind t]).countP (·.groupKey = some g) =
        c.out.countP (·.groupKey = some g) + if given (c.store.hash id).groupKey = some g then 1 else 0 := by
      rw [List.countP_append, List.countP_singleton]
      by_cases hgiven : given (c.store.hash id).groupKey = some g <;> simp [claimReply, hgiven]
    have hstart : ∀ {b' : Bucket} {n : ℤ} {o : Option String}, s.Metered g r p b' →
        (startJob s a queue id n o).Metered g r p b' :=
      fun h' => h'.congr (congrFun (startJob_groupMeta _ _ _ _ _ _) g)
    refine ⟨_, hcount, ?_⟩
    rcases h.gate hr hp h₀ gate with ⟨h', hno⟩ | ⟨k, rfl, hk, h'⟩
    · refine .inl ⟨if_neg (fun hgiven => hno ?_), hstart h'⟩
      obtain ⟨hkey, hne⟩ := given_eq_some.mp hgiven
      exact ⟨rfl, hkey, hne⟩
    · refine .inr ⟨_, ?_, hk, hstart h'⟩
      split
      · exact le_rfl
      · exact Nat.zero_le _

/-- **The tokens of the store** are between zero and the rate, whatever the clocks. -/
theorem Rated.Step.range (hr : 0 < r) (hp : 0 < p) (h : Rated.Step g careful z z')
    (hz : ∃ b, z.store.Metered g r p b ∧ 0 ≤ b.tokens ∧ b.tokens ≤ r) :
    ∃ b, z'.store.Metered g r p b ∧ 0 ≤ b.tokens ∧ b.tokens ≤ r := by
  cases h with
  | claim a ok =>
    refine fnClaim_rule (P := fun s _ => ∃ b, s.Metered g r p b ∧ 0 ≤ b.tokens ∧ b.tokens ≤ r) hz ?_
    rintro queue t c id c' he ⟨b, hb, h₀, hfull⟩
    obtain ⟨n, _, ⟨_, hb'⟩ | ⟨k, _, hk, hb'⟩⟩ := he.draws hr hp hb h₀
    · exact ⟨b, hb', h₀, hfull⟩
    · refine ⟨_, hb', sub_nonneg.mpr hk, ?_⟩
      have hk0 : (0 : ℚ) ≤ k := Nat.cast_nonneg k
      have hle := b.level_le (r := r) (p := p) a.now
      show b.level r p a.now - k ≤ r
      linarith
  | other op spares =>
    obtain ⟨b, hb, hrange⟩ := hz
    exact ⟨b, hb.apply op spares, hrange⟩

/-- **A careful call** keeps the account of the bucket. -/
theorem Rated.Step.kept (hr : 0 < r) (hp : 0 < p) (hc : careful) (h : Rated.Step g careful z z')
    (hz : ∃ b, z.store.Metered g r p b ∧ b.Kept r p z.started) : ∃ b, z'.store.Metered g r p b ∧ b.Kept r p z'.started := by
  have hr' : (0 : ℚ) ≤ r := by exact_mod_cast hr.le
  have hp' : (0 : ℚ) ≤ p := by exact_mod_cast hp.le
  cases h with
  | claim a ok =>
    obtain ⟨b, hb, hk⟩ := hz
    have key : ∃ b, (fnClaim z.store a).1.Metered g r p b ∧ b.since ≤ a.now ∧
        b.Kept r p (List.replicate ((fnClaim z.store a).2.countP (·.groupKey = some g)) a.now ++ z.started) := by
      refine fnClaim_rule (P := fun s out => ∃ b, s.Metered g r p b ∧ b.since ≤ a.now ∧
        b.Kept r p (List.replicate (out.countP (·.groupKey = some g)) a.now ++ z.started)) ?_ ?_
      · exact ⟨b, hb, ok hc _ hb.since, hk⟩
      · rintro queue t c id c' he ⟨b, hb, hsince, hk⟩
        obtain ⟨n, hcount, ⟨rfl, hb'⟩ | ⟨k, hnk, hlevel, hb'⟩⟩ := he.draws hr hp hb hk.nonneg
        · rw [hcount]
          exact ⟨b, hb', hsince, hk⟩
        · refine ⟨_, hb', le_rfl, ?_⟩
          rw [hcount, Nat.add_comm, List.replicate_add, List.append_assoc]
          exact (hk.draw hr' hp' hsince hlevel).forget
            (((List.replicate_sublist_replicate a.now).mpr hnk).append (List.Sublist.refl _))
    obtain ⟨b', hb', _, hk'⟩ := key
    exact ⟨b', hb', hk'⟩
  | other op spares =>
    obtain ⟨b, hb, hk⟩ := hz
    exact ⟨b, hb.apply op spares, hk⟩

theorem Rated.Reached.step (h : z.Reached g r p careful) (hs : Rated.Step g careful z z') : z'.Reached g r p careful := by
  obtain ⟨s, t, hz⟩ := h
  exact ⟨s, t, hz.step (a := ()) hs⟩

theorem Rated.Reached.range (hr : 0 < r) (hp : 0 < p) (h : z.Reached g r p careful) :
    ∃ b, z.store.Metered g r p b ∧ 0 ≤ b.tokens ∧ b.tokens ≤ r := by
  obtain ⟨s, t, hz⟩ := h
  refine hz.inv (P := fun z => ∃ b, z.store.Metered g r p b ∧ 0 ≤ b.tokens ∧ b.tokens ≤ (r : ℚ)) ?_ ?_
  · have hr' : (0 : ℚ) ≤ r := by exact_mod_cast hr.le
    exact ⟨_, metered_setRate s g r p t, hr', le_rfl⟩
  · exact fun z _ z' hz hs => hs.range hr hp hz

theorem Rated.Reached.kept (hr : 0 < r) (hp : 0 < p) (hc : careful) (h : z.Reached g r p careful) :
    ∃ b, z.store.Metered g r p b ∧ b.Kept r p z.started := by
  obtain ⟨s, t, hz⟩ := h
  refine hz.inv (P := fun z => ∃ b, z.store.Metered g r p b ∧ b.Kept r p z.started) ?_ ?_
  · exact ⟨_, metered_setRate s g r p t, .fresh (by exact_mod_cast hr.le) (by exact_mod_cast hp.le) t⟩
  · exact fun z _ z' hz hs => hs.kept hr hp hc hz

/-- The jobs are started at clocks that were seen. -/
theorem Rated.Reached.started_clocks (h : z.Reached g r p careful) : z.started ⊆ z.clocks ∧ z.clocks ≠ [] := by
  obtain ⟨s, t, hz⟩ := h
  refine hz.inv (P := fun z => z.started ⊆ z.clocks ∧ z.clocks ≠ []) ⟨List.nil_subset _, nofun⟩ ?_
  rintro z _ z' ⟨hsub, hne⟩ hs
  cases hs with
  | claim a ok =>
    refine ⟨fun x hx => ?_, nofun⟩
    rcases List.mem_append.mp hx with hx | hx
    · exact List.eq_of_mem_replicate hx ▸ List.mem_cons_self
    · exact List.mem_cons_of_mem _ (hsub hx)
  | other => exact ⟨hsub, hne⟩

end Rated

/-- Three jobs of a group that may start one in a second. -/
def rateJobs : Store :=
  [Op.enqueue { kind := "mail", queue := "default", groupKey := "g" } 0,
   .enqueue { kind := "mail", queue := "default", groupKey := "g" } 0,
   .enqueue { kind := "mail", queue := "default", groupKey := "g" } 0].foldl Op.apply Store.empty

def rateClaim (now : ℤ) : ClaimArgs := { batchSize := 4, worker := "w", now := now, queues := ["default"], kinds := ["mail"] }

/-- The claims of a run, one after the other. -/
def Rated.claims (g : String) (z : Rated) (nows : List ℤ) : Rated :=
  nows.foldl (fun z now => { store := (fnClaim z.store (rateClaim now)).1, clocks := now :: z.clocks
                             started := List.replicate ((fnClaim z.store (rateClaim now)).2.countP (·.groupKey = some g)) now ++
                               z.started }) z

theorem Rated.Reached.claims {g : String} {r p : ℤ} {careful : Prop} (hc : ¬ careful) : ∀ (nows : List ℤ) {z : Rated},
    z.Reached g r p careful → (z.claims g nows).Reached g r p careful
  | [], _, h => h
  | now :: nows, _, h => claims hc nows (h.step (.claim (rateClaim now) (fun h => absurd h hc)))

/-- The bucket after `set_rate`. -/
def rateStart : Rated := ⟨fnGroupSetRate rateJobs "g" 1 1000 0, [0], []⟩

end Eddyq.Redis
