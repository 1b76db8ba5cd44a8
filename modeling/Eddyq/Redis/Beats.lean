import Eddyq.Runtime.Beats
import Eddyq.Redis.ClaimSafety
import Eddyq.Redis.Frames
import Eddyq.Redis.Lives

/-!
# Heartbeats and sweeps on Redis

The stamp of a running job is its score in `active`. A claim and a heartbeat write it, the other functions keep it or take
the job out (`StampsKept`). A heartbeat looks at `state`, so that it stamps what is in `active` as long as that is what is
running (`Refines`), which verdicts from an earlier lease can break.
-/

namespace Eddyq.Redis

open Eddyq.Lib

/-- The job is in `active`, stamped with that time. -/
def Store.beat (s : Store) (id : JobId) (b : ℤ) : Prop := s.zscore .active id = some b

/-- The calls other than claims, heartbeats, sweeps and verdicts. -/
def Op.aside : Op → Prop
  | .claim .. | .heartbeat .. | .sweepStale .. | .complete .. | .fail .. => False
  | _ => True

/-! ## Calls that keep the stamps -/

section Kept

variable {s s' : Store} (id : JobId)

/-- Every stamp in `active` was there. -/
def StampsKept (s s' : Store) : Prop := ∀ id, s'.zscore .active id = s.zscore .active id ∨ s'.zscore .active id = none

theorem StampsKept.of_zsets (h : s'.zsets = s.zsets) : StampsKept s s' := by
  intro id
  rw [Store.zscore, Store.zscore, h]
  exact .inl rfl

theorem StampsKept.of_cell (h : s'.cell = s.cell) : StampsKept s s' := by
  intro id
  exact .inl (congrArg (fun c => c.score .active) (congrFun h id))

theorem StampsKept.trans {s₁ : Store} (h : StampsKept s s₁) (h' : StampsKept s₁ s') : StampsKept s s' := by
  intro id
  rcases h' id with h' | h'
  · rw [h']
    exact h id
  · exact .inr h'

theorem StampsKept.beat (h : StampsKept s s') {id : JobId} {b : ℤ} (hb : s'.beat id b) : s.beat id b := by
  have hb : s'.zscore .active id = some b := hb
  rcases h id with hs | hn
  · exact hs.symm.trans hb
  · rw [hn] at hb
    cases hb

theorem Command.stampsKept (h : Command False s s') : StampsKept s s' := by
  cases h with
  | stamp _ _ allowed => exact allowed.elim
  | zadd k sc id aside =>
    intro i
    rw [Store.zscore_zadd, if_neg (fun h => aside h.1.symm)]
    exact .inl rfl
  | zrem k id =>
    intro i
    rw [Store.zscore_zrem]
    split
    · exact .inr rfl
    · exact .inl rfl
  | _ => exact .of_zsets rfl

theorem Commands.stampsKept (h : Commands False s s') : StampsKept s s' := by
  induction h with
  | refl => exact .of_zsets rfl
  | tail _ hc ih => exact ih.trans hc.stampsKept

theorem StampsKept.insertJob (s : Store) (a : EnqueueArgs) (now : ℤ) : StampsKept s (insertJob s a id now) := by
  intro i
  have hcell := congrArg (fun c => c.score .active) (congrFun (cell_insertJob s id a now) i)
  by_cases hi : i = id
  · subst hi
    rw [Function.update_self] at hcell
    refine .inl (hcell.trans ?_)
    unfold JobCell.inserted
    dsimp only
    split <;> rfl
  · rw [Function.update_of_ne hi] at hcell
    exact .inl hcell

theorem StampsKept.enqueue (s : Store) (a : EnqueueArgs) (now : ℤ) : StampsKept s (fnEnqueue s a now).1 := by
  unfold fnEnqueue
  split
  · exact .of_zsets rfl
  · refine StampsKept.trans (.of_zsets ?_) (.insertJob (s.idgen + 1) _ a now)
    split <;> rfl

theorem StampsKept.enqueueMany (now : ℤ) : ∀ (as : List EnqueueArgs) (s : Store), StampsKept s (fnEnqueueMany s as now).1
  | [], _ => .of_zsets rfl
  | a :: as, s => (StampsKept.enqueue s a now).trans (.enqueueMany now as _)

theorem StampsKept.scheduleFire (s : Store) (a : FireArgs) : StampsKept s (fnScheduleFire s a).1 := by
  rcases fnScheduleFire_cases s a with hsame | hs
  · rw [hsame]
    exact .of_zsets rfl
  · have hins : StampsKept s (Redis.insertJob { s with idgen := s.idgen + 1 } a.toEnqueue (s.idgen + 1) a.now) :=
      .insertJob (s.idgen + 1) { s with idgen := s.idgen + 1 } a.toEnqueue a.now
    exact hins.trans (.of_cell hs.1)

end Kept

/-- A call aside keeps the stamps. -/
theorem Op.aside_stampsKept {op : Op} (h : op.aside) (s : Store) : StampsKept s (op.apply s) := by
  cases op with
  | claim | heartbeat | sweepStale | complete | fail => exact h.elim
  | enqueue a now => exact .enqueue s a now
  | enqueueMany as now => exact .enqueueMany now as s
  | promoteDelayed | reclaimInFlight | cancel | cleanup =>
    exact (Op.apply_commands False s _ rfl fun _ _ he => by cases he).stampsKept
  | scheduleFire a => exact .scheduleFire s a
  | _ => exact .of_cell (Op.apply_sameJobs s _ rfl).1

/-! ## Claims, heartbeats and sweeps -/

section Stamps

variable {s : Store} {A : Line} {id : JobId} {b : ℤ}

theorem startJob_active (s : Store) (a : ClaimArgs) (queue : String) (id : JobId) (n : ℤ) (g : Option String) :
    (startJob s a queue id n g).zscore .active id = some a.now := by
  unfold startJob
  cases g <;> simp [Store.zscore, Store.zadd, Store.zrem, Store.hset]

/-- The stamps after a claim. -/
theorem fnClaim_beat (a : ClaimArgs) (hb : (fnClaim s a).1.beat id b) :
    if id ∈ (fnClaim s a).2.map (·.id) then b = a.now else s.beat id b := by
  refine fnClaim_rule (P := fun x out => ∀ id b, x.beat id b → if id ∈ out.map (·.id) then b = a.now else s.beat id b)
    (fun _ _ hb => hb) (fun {queue t c i c'} he hP => ?_) id b hb
  cases he with
  | skip => exact hP
  | stop gate => exact fun j d hd => hP j d ((StampsKept.of_cell gate.sameJobs.1).beat hd)
  | gone gate => exact fun j d hd => hP j d ((StampsKept.of_cell gate.sameJobs.1).beat hd)
  | @start s₁ kind _ size isOpen hkind listed pending gate waits =>
    intro j d hd
    have hd : (startJob s₁ a queue i ((c.store.hash i).attempt.getD 0 + 1) (given (c.store.hash i).groupKey)).zscore
      .active j = some d := hd
    rw [List.map_append, List.map_singleton]
    by_cases hj : j = i
    · subst hj
      have hin : j ∈ c.out.map (·.id) ++ [(claimReply (c.store.hash j) a j kind t).id] :=
        List.mem_append_right _ (List.mem_singleton.mpr rfl)
      rw [startJob_active] at hd
      rw [if_pos hin]
      exact (Option.some.inj hd).symm
    · have hcell := startJob_cell_ne s₁ a queue i ((c.store.hash i).attempt.getD 0 + 1) (given (c.store.hash i).groupKey) hj
      have hold : s₁.zscore .active j = some d := by
        rw [← hd]
        exact (congrArg (fun c => c.score .active) hcell).symm
      have hrule := hP j d ((StampsKept.of_cell gate.sameJobs.1).beat hold)
      by_cases hin : j ∈ c.out.map (·.id)
      · rw [if_pos hin] at hrule
        rw [if_pos (List.mem_append_left _ hin)]
        exact hrule
      · have hno : j ∉ c.out.map (·.id) ++ [(claimReply (c.store.hash i) a i kind t).id] := by
          rw [List.mem_append, List.mem_singleton]
          exact not_or.mpr ⟨hin, hj⟩
        rw [if_neg hin] at hrule
        rw [if_neg hno]
        exact hrule

/-- One stamp, where what is in `active` is running. -/
theorem heartbeatOne_beat {now : ℤ} {i : JobId} (hr : s.beat id b → s.state id = some .running)
    (hb : (heartbeatOne now s i).1.beat id b) : if id = i then b = now else s.beat id b := by
  have hb : (heartbeatOne now s i).1.zscore .active id = some b := hb
  by_cases hi : isRunning s i = true
  · rw [heartbeatOne, if_pos hi] at hb
    dsimp only at hb
    rw [Store.zscore_zadd] at hb
    by_cases hid : id = i
    · rw [if_pos ⟨rfl, hid⟩] at hb
      rw [if_pos hid]
      exact (Option.some.inj hb).symm
    · rw [if_neg (fun h => hid h.2)] at hb
      rw [if_neg hid]
      exact hb
  · rw [heartbeatOne, if_neg hi] at hb
    have hid : id ≠ i := by
      intro he
      exact hi (he ▸ decide_eq_true (hr hb))
    rw [if_neg hid]
    exact hb

/-- A loop of stamps. -/
theorem heartbeat_loop_beat (now : ℤ) : ∀ (ids : List JobId) {s : Store} {A : Line}, Refines False s A →
    (forEach (heartbeatOne now) ids s).1.beat id b → if id ∈ ids then b = now else s.beat id b
  | [], _, _, _, hb => hb
  | i :: ids, s, A, h, hb => by
    have hgo : (heartbeatOne now s i).2 = true := by
      unfold heartbeatOne
      split <;> rfl
    have hone : (heartbeatOne now s i).1 = (fnHeartbeat s now [i]).1 := by
      rw [fnHeartbeat, forEachCount_fst, forEach, if_pos hgo]
      rfl
    obtain ⟨A', _, h'⟩ := fnHeartbeat_sim h now [i]
    rw [← hone] at h'
    rw [forEach, if_pos hgo] at hb
    have hrest := heartbeat_loop_beat now ids h' hb
    by_cases hin : id ∈ ids
    · rw [if_pos hin] at hrest
      rw [if_pos (List.mem_cons_of_mem _ hin)]
      exact hrest
    · rw [if_neg hin] at hrest
      have hfirst := heartbeatOne_beat (fun hs => h.active_running (Option.isSome_iff_exists.mpr ⟨b, hs⟩)) hrest
      by_cases hi : id = i
      · rw [if_pos hi] at hfirst
        rw [if_pos (hi ▸ List.mem_cons_self)]
        exact hfirst
      · rw [if_neg hi] at hfirst
        rw [if_neg (fun hm => (List.mem_cons.mp hm).elim hi hin)]
        exact hfirst

theorem fnHeartbeat_beat (h : Refines False s A) {now : ℤ} {ids : List JobId} (hb : (fnHeartbeat s now ids).1.beat id b) :
    if id ∈ ids then b = now else s.beat id b := by
  rw [fnHeartbeat, forEachCount_fst] at hb
  exact heartbeat_loop_beat now ids h hb

theorem Verdict.stampsKept (v : Verdict) (id : JobId) (w : WorkerId) (s : Store) : StampsKept s ((v.toOp id w).apply s) := by
  cases v <;> exact (Op.apply_commands False s _ rfl fun _ _ he => by cases he).stampsKept

/-- A sweep finds jobs whose stamp is not younger than its cutoff. -/
theorem staleIds_beat {t : ℤ} {n : Nat} (hid : id ∈ s.staleIds t n) : ∃ b, s.beat id b ∧ b ≤ t := by
  obtain ⟨sc, hsc, hle⟩ := ZSet.mem_of_mem_rangeByScore hid
  exact ⟨sc, hsc, of_decide_eq_true hle⟩

end Stamps

/-- The store is that of a line. -/
def Store.Lined (s : Store) : Prop := ∃ A, Refines False s A

theorem Store.Lined.step {s : Store} (h : s.Lined) (op : Op) (hok : op.Ok False s) : (op.apply s).Lined := by
  obtain ⟨A, h⟩ := h
  obtain ⟨A', _, h'⟩ := Op.apply_sim h op hok
  exact ⟨A', h'⟩

theorem Op.aside_ok {op : Op} (h : op.aside) (s : Store) : op.Ok False s := by
  refine Op.ok_of_notVerdict ?_ s
  cases op with
  | complete | fail => exact h.elim
  | _ => exact trivial

/-- `batch_max` of `sweep_stale`. -/
def sweepBatchMax : Nat := 256

/-- Redis by the clock. -/
def pulse : Runtime.Pulse Store where
  inv _ := True
  sound := Store.Lined
  current s id w := s.VerdictOk id w
  beat := Store.beat
  patience n := n - 1
  claim t w s n rows s' := ∃ a : ClaimArgs, a.worker = w ∧ a.batchSize = n ∧ a.now = t ∧
    rows = (fnClaim s a).2.map (·.id) ∧ s' = (fnClaim s a).1
  verdict _ w s id s' := ∃ v : Verdict, s' = (v.toOp id w).apply s
  heartbeat t s ids s' := s' = (fnHeartbeat s t ids).1
  sweep t n s ids s' := ids = s.staleIds (t - n) sweepBatchMax ∧ s' = (fnSweepStale s (t - n) sweepBatchMax).1
  other s s' := ∃ op : Op, op.aside ∧ s' = op.apply s
  claim_inv _ _ := trivial
  verdict_inv _ _ := trivial
  heartbeat_inv _ _ := trivial
  sweep_inv _ _ := trivial
  other_inv _ _ := trivial
  claim_sound := by
    rintro t w s n rows s' hs ⟨a, rfl, rfl, rfl, rfl, rfl⟩
    exact hs.step (.claim a) trivial
  verdict_sound := by
    rintro t w s id s' hs ⟨v, rfl⟩ hok
    refine hs.step (v.toOp id w) ?_
    cases v <;> exact hok
  heartbeat_sound := by
    rintro t s ids s' hs rfl
    exact hs.step (.heartbeat t ids) trivial
  sweep_sound := by
    rintro t n s ids s' hs ⟨rfl, rfl⟩
    exact hs.step (.sweepStale (t - n) sweepBatchMax) trivial
  other_sound := by
    rintro s s' hs ⟨op, ha, rfl⟩
    exact hs.step op (Op.aside_ok ha s)
  claim_rows := by
    rintro t w s n rows s' - ⟨a, rfl, rfl, rfl, rfl, rfl⟩
    rw [List.length_map]
    exact ⟨fnClaim_length s a, (fnClaim_replied s a).distinct⟩
  claim_beat := by
    rintro t w s n rows s' id b - ⟨a, rfl, rfl, rfl, rfl, rfl⟩ hb
    exact fnClaim_beat a hb
  verdict_beat := by
    rintro t w s id s' i b ⟨v, rfl⟩ hb
    exact (v.stampsKept id w s).beat hb
  heartbeat_beat := by
    rintro t s ids s' id b ⟨A, hs⟩ rfl hb
    exact fnHeartbeat_beat hs hb
  sweep_beat := by
    rintro t n s ids s' id b ⟨rfl, rfl⟩ hb
    have hkept := Op.apply_commands False s (.sweepStale (t - n) sweepBatchMax) rfl fun _ _ he => by cases he
    exact hkept.stampsKept.beat hb
  other_beat := by
    rintro s s' id b ⟨op, ha, rfl⟩ hb
    exact (Op.aside_stampsKept ha s).beat hb
  sweep_stale := by
    rintro t n s ids s' id - ⟨rfl, rfl⟩ hid
    obtain ⟨b, hb, hle⟩ := staleIds_beat hid
    exact ⟨b, hb, by omega⟩

end Eddyq.Redis
