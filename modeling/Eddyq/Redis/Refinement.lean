import Eddyq.Redis.Agreement
import Eddyq.Redis.Gates

/-!
# The Redis library refines the line of jobs

`Rep named loose s A` relates a store to a line: the same ids and reservations, and for every job of the line a cell
that is at home, or loose for the jobs in `loose`; ids without a job have no key. Every function of the library moves
the line by some number of steps, provided a verdict comes from the current lease (`Store.VerdictOk`):
`fnEnqueue_sim`, `fnClaim_sim`, `fnComplete_sim`, ..., and so does every run (`reached_sim`).
-/

namespace Eddyq.Redis

open Eddyq.Lib

/-! ## The relation -/

section Relation

variable (named : Prop)

/-- What the cell of an id must be. -/
def JobCell.Holds (loose : Prop) (c : JobCell) : Option JobInfo → Prop
  | none => c.Gone named
  | some i => (loose → c.Loose named i) ∧ (¬ loose → c.Home named i)

/-- The store says what the line says. -/
structure Rep (loose : JobId → Prop) (s : Store) (A : Line) : Prop where
  idgen : s.idgen = A.idgen
  unique : s.unique = A.unique
  fresh : ∀ id, A.idgen < id → A.jobs id = none
  cell : ∀ id, (s.cell id).Holds named (loose id) (A.jobs id)

/-- Between calls no job is loose. -/
def Refines (s : Store) (A : Line) : Prop := Rep named (fun _ => False) s A

/-- The store is that of a line which `A` can become. -/
def Follows (A : Line) (s : Store) : Prop := ∃ A', A.Steps A' ∧ Refines named s A'

end Relation

section Rep

variable {named : Prop} {loose loose' : JobId → Prop} {s s' : Store} {A A' : Line} {id : JobId} {i : JobInfo}

theorem Rep.home (h : Rep named loose s A) (hj : A.jobs id = some i) (hl : ¬ loose id) :
    (s.cell id).Home named i := by
  have := h.cell id
  rw [hj] at this
  exact this.2 hl

theorem Rep.looseCell (h : Rep named loose s A) (hj : A.jobs id = some i) (hl : loose id) :
    (s.cell id).Loose named i := by
  have := h.cell id
  rw [hj] at this
  exact this.1 hl

theorem Rep.known (h : Rep named loose s A) (hj : A.jobs id = some i) : (s.cell id).Known named i := by
  by_cases hl : loose id
  · exact (h.looseCell hj hl).toKnown
  · exact (h.home hj hl).toKnown

/-- A member of a sorted set is a job that is at home there. -/
theorem Rep.of_score (h : Rep named loose s A) {k : ZKey} (hk : k.Tracked named) (hs : (s.zscore k id).isSome) :
    ∃ i, A.jobs id = some i ∧ ¬ loose id ∧ k ∈ i.homeKeys := by
  have hc := h.cell id
  rw [← Store.cell_score] at hs
  cases hj : A.jobs id with
  | none =>
    rw [hj] at hc
    rw [hc.score k hk] at hs
    cases hs
  | some i =>
    have hl : ¬ loose id := by
      intro hl
      rw [(h.looseCell hj hl).score k hk] at hs
      cases hs
    exact ⟨i, rfl, hl, ((h.home hj hl).score k hk).mp hs⟩

/-- A HASH with a state is a job in that state. -/
theorem Rep.of_state (h : Rep named loose s A) {st : JobState} (hs : (s.hash id).state = some st) :
    ∃ i, A.jobs id = some i ∧ i.state = st := by
  have hc := h.cell id
  rw [← Store.cell_fields] at hs
  cases hj : A.jobs id with
  | none =>
    rw [hj] at hc
    rw [JobCell.fields, hc.hash] at hs
    cases hs
  | some i =>
    refine ⟨i, rfl, ?_⟩
    rw [(h.known hj).fields.state] at hs
    exact Option.some.inj hs

/-- Rewriting the cell of one job, on both sides. -/
theorem Rep.set (h : Rep named loose s A) (hj : A.jobs id ≠ none) {c : JobCell} {o : Option JobInfo}
    (hc : s'.cell = Function.update s.cell id c) (hi : s'.idgen = s.idgen) (hu : s'.unique = A'.unique)
    (hA : A'.jobs = Function.update A.jobs id o) (hAi : A'.idgen = A.idgen)
    (hl : ∀ j, j ≠ id → (loose' j ↔ loose j)) (hh : c.Holds named (loose' id) o) : Rep named loose' s' A' := by
  refine ⟨hi.trans (h.idgen.trans hAi.symm), hu, fun j hlt => ?_, fun j => ?_⟩
  · rw [hAi] at hlt
    have hne : j ≠ id := fun e => hj (e ▸ h.fresh j hlt)
    rw [hA, Function.update_of_ne hne]
    exact h.fresh j hlt
  · rw [hc, hA]
    by_cases hne : j = id
    · subst hne
      rwa [Function.update_self, Function.update_self]
    · rw [Function.update_of_ne hne, Function.update_of_ne hne, propext (hl j hne)]
      exact h.cell j

/-- A live job moves to another live state. -/
theorem Refines.move (h : Refines named s A) (hj : A.jobs id = some i) (hl : ¬ i.state.terminal) (st : JobState)
    (hl' : ¬ st.terminal) {c : JobCell} (hc : s'.cell = Function.update s.cell id c) (hi : s'.idgen = s.idgen)
    (hu : s'.unique = s.unique) (hh : c.Home named { i with state := st }) : Follows named A s' :=
  ⟨_, .single (.move st hj hl hl'), Rep.set h (by simp [hj]) hc hi (hu.trans h.unique) rfl rfl (fun _ _ => Iff.rfl)
    ⟨nofun, fun _ => hh⟩⟩

/-- A live job is finished. -/
theorem Refines.finish (h : Refines named s A) (hj : A.jobs id = some i) (hl : ¬ i.state.terminal) (st : JobState)
    (hd : st.terminal) {c : JobCell} (hc : s'.cell = Function.update s.cell id c) (hi : s'.idgen = s.idgen)
    (hu : s'.unique = A.release i.unique id) (hh : c.Home named { i with state := st }) : Follows named A s' :=
  ⟨_, .single (.finish st hj hl hd), Rep.set h (by simp [hj]) hc hi hu rfl rfl (fun _ _ => Iff.rfl)
    ⟨nofun, fun _ => hh⟩⟩

theorem Follows.refl (h : Refines named s A) : Follows named A s := ⟨A, .refl, h⟩

/-- What the store of one call becomes under the next. -/
theorem Follows.bind {f : Store → Store} (h : Follows named A s) (hf : ∀ A, Refines named s A → Follows named A (f s)) :
    Follows named A (f s) := by
  obtain ⟨A₁, h₁, hr₁⟩ := h
  obtain ⟨A₂, h₂, hr₂⟩ := hf A₁ hr₁
  exact ⟨A₂, h₁.trans h₂, hr₂⟩

/-- A store with the same jobs. -/
theorem SameJobs.refines (h : SameJobs s s') (hr : Refines named s A) : Refines named s' A :=
  ⟨h.2.1.trans hr.idgen, h.2.2.trans hr.unique, hr.fresh, fun id => h.1 ▸ hr.cell id⟩

/-- The library's `drop_unique_if_owner` is the line's release. -/
theorem dropUniqueIfOwner_release (h : s.unique = A.unique) (u : String) (id : JobId) :
    (dropUniqueIfOwner s (some u) id).unique = A.release u id := by
  unfold dropUniqueIfOwner Line.release
  by_cases hu : u = ""
  · simp [hu, h]
  · simp only [given_some hu, ne_eq, hu, not_false_eq_true, true_and, ← h]
    split <;> rfl

theorem releaseUnique_release (hk : (s.cell id).Known named i) (h : s.unique = A.unique) :
    (releaseUnique s id).unique = A.release i.unique id := by
  rw [releaseUnique, ← Store.cell_fields, hk.fields.unique]
  exact dropUniqueIfOwner_release h _ _

end Rep

/-! ## Enqueue and fire -/

section Enqueue

variable {named : Prop} {s : Store} {A : Line}

/-- The writes of an enqueue for the next id. -/
theorem insertJob_sim (h : Refines named s A) (a : EnqueueArgs) (now : ℤ)
    (hn : named → a.queue ≠ "" ∧ a.kind ≠ "") (hfree : a.uniqueKey ≠ "" → s.unique a.uniqueKey = none)
    {s₁ : Store} (hc : s₁.cell = s.cell) (hi : s₁.idgen = s.idgen + 1)
    (hu : s₁.unique = A.reserve a.uniqueKey (A.idgen + 1)) :
    Follows named A (insertJob s₁ a (s.idgen + 1) now) := by
  have hnone : A.jobs (s.idgen + 1) = none := h.fresh _ (by rw [h.idgen]; exact Nat.lt_succ_self _)
  refine ⟨_, .single (.insert (a.info now) (a.info_live now) (fun hne => h.unique ▸ hfree hne)), ?_, ?_, ?_, ?_⟩
  · rw [insertJob_idgen, hi, h.idgen]
  · rw [insertJob_unique, hu]
    rfl
  · intro id hlt
    have hne : id ≠ A.idgen + 1 := fun e => absurd hlt (by rw [e]; exact Nat.lt_irrefl _)
    simp only [Function.update_of_ne hne]
    exact h.fresh id (Nat.lt_of_succ_lt hlt)
  · intro id
    rw [cell_insertJob, hc, h.idgen]
    by_cases hid : id = A.idgen + 1
    · subst hid
      have hg := h.cell (A.idgen + 1)
      rw [← h.idgen, hnone, h.idgen] at hg
      simp only [Function.update_self]
      exact ⟨nofun, fun _ => JobCell.Gone.inserted hg a _ now hn⟩
    · simp only [Function.update_of_ne hid]
      exact h.cell id

theorem fnEnqueue_sim (h : Refines named s A) (a : EnqueueArgs) (now : ℤ)
    (hn : named → a.queue ≠ "" ∧ a.kind ≠ "") : Follows named A (fnEnqueue s a now).1 := by
  unfold fnEnqueue
  split
  · exact .refl h
  · next hfree =>
    have hfree' : a.uniqueKey ≠ "" → s.unique a.uniqueKey = none := by
      intro hne
      cases hu : s.unique a.uniqueKey with
      | none => rfl
      | some o => exact absurd ⟨hne, by rw [hu]; rfl⟩ hfree
    refine insertJob_sim h a now hn hfree' ?_ ?_ ?_
    · split <;> rfl
    · split <;> rfl
    · rw [Line.reserve, ← h.unique, ← h.idgen]
      split <;> rfl

theorem fnEnqueueMany_sim (now : ℤ) : ∀ (as : List EnqueueArgs) {s : Store}, Follows named A s →
    (∀ a ∈ as, named → a.queue ≠ "" ∧ a.kind ≠ "") → Follows named A (fnEnqueueMany s as now).1
  | [], _, h, _ => h
  | a :: as, s, h, hn => by
    have h1 : Follows named A (fnEnqueue s a now).1 :=
      h.bind (f := fun s => (fnEnqueue s a now).1) (fun A hA => fnEnqueue_sim hA a now (hn a List.mem_cons_self))
    exact fnEnqueueMany_sim now as h1 (fun b hb => hn b (List.mem_cons_of_mem _ hb))

end Enqueue

/-! ## Claim and heartbeat -/

section Claim

variable {named : Prop} {s : Store} {A : Line} {id : JobId} {i : JobInfo}

/-- `startJob` moves a pending job to its running sets. -/
theorem startJob_sim (h : Refines named s A) (a : ClaimArgs) {queue : String} (attempt : ℤ)
    (hj : A.jobs id = some i) (hp : i.state = .pending) (hq : i.queue = queue) :
    Follows named A (startJob s a queue id attempt (given (some i.group))) := by
  subst hq
  have hlive : ¬ i.state.terminal := by rw [hp]; nofun
  have hrun : ¬ JobState.running.terminal := nofun
  refine h.move hj hlive .running hrun (c := (startJob s a i.queue id attempt (given (some i.group))).cell id) ?_ ?_ ?_ ?_
  · unfold startJob
    cases given (some i.group) <;> simp
  · unfold startJob
    cases given (some i.group) <;> simp
  · unfold startJob
    cases given (some i.group) <;> simp
  · refine (Rep.home h hj nofun).start hp (f := fun h => { h with
      state := some .running, attempt := some attempt, lockedAt := some a.now, lockedBy := some a.worker })
      (fun _ => rfl) (fun _ => ⟨rfl, rfl, rfl, rfl, rfl⟩) a.now ?_
    unfold startJob
    cases given (some i.group) <;> simp

theorem Gated.sameJobs {g : String} {now : ℤ} {s s' : Store} {b : Bool} (h : Gated s g now s' b) : SameJobs s s' := by
  obtain ⟨gm, rfl⟩ := h.store_eq
  exact ⟨rfl, rfl, rfl⟩

theorem EntryStep.sim {a : ClaimArgs} {queue : String} {t : Option ℤ} {c c' : ClaimState} {id : JobId}
    (he : EntryStep a queue t c id c') (h : Follows named A c.store) : Follows named A c'.store := by
  obtain ⟨A', hA', hr⟩ := h
  cases he with
  | skip => exact ⟨A', hA', hr⟩
  | stop gate => exact ⟨A', hA', gate.sameJobs.refines hr⟩
  | gone gate => exact ⟨A', hA', gate.sameJobs.refines hr⟩
  | @start s' kind _ size isOpen hkind listed pending gate waits =>
    have hr' := gate.sameJobs.refines hr
    obtain ⟨i, hj, hp⟩ := hr.of_state pending
    have hgrp : given (c.store.hash id).groupKey = given (some i.group) := by
      rw [← Store.cell_fields, (hr.known hj).fields.group]
    -- the wait set it is in is that of its own queue
    obtain ⟨i', hj', _, hk⟩ := hr'.of_score (k := .wait queue) nofun waits
    rw [hj] at hj'
    cases hj'
    have hq : i.queue = queue := by
      simp only [JobInfo.homeKeys, homeKeys, hp, List.mem_singleton, ZKey.wait.injEq] at hk
      exact hk.symm
    obtain ⟨A₂, h₂, hr₂⟩ := startJob_sim hr' a ((c.store.hash id).attempt.getD 0 + 1) hj hp hq
    exact ⟨A₂, hA'.trans h₂, hgrp ▸ hr₂⟩

theorem fnClaim_sim (h : Refines named s A) (a : ClaimArgs) : Follows named A (fnClaim s a).1 :=
  fnClaim_rule (P := fun s _ => Follows named A s) (.refl h) (fun he hs => he.sim hs)

theorem heartbeatOne_sim (h : Follows named A s) (now : ℤ) (id : JobId) :
    Follows named A (heartbeatOne now s id).1 := by
  unfold heartbeatOne
  split
  · next hrun =>
    obtain ⟨A', hA', hr⟩ := h
    obtain ⟨i, hj, hst⟩ := hr.of_state (of_decide_eq_true hrun)
    have hbeat := (Rep.home hr hj nofun).beat hst (f := fun h => { h with lockedAt := some now }) (fun _ => rfl)
      (fun _ => ⟨rfl, rfl, rfl, rfl, rfl⟩) now
    have hne : A'.jobs id ≠ none := by rw [hj]; nofun
    refine ⟨A', hA', Rep.set hr hne (o := some i) ?_ rfl hr.unique ?_ rfl (fun _ _ => Iff.rfl)
      ⟨nofun, fun _ => hbeat⟩⟩
    · simp
    · rw [← hj, Function.update_eq_self]
  · exact h

theorem fnHeartbeat_sim (h : Refines named s A) (now : ℤ) (ids : List JobId) :
    Follows named A (fnHeartbeat s now ids).1 := by
  rw [fnHeartbeat, forEachCount_fst]
  exact forEach_inv (.refl h) (fun s id _ hs => heartbeatOne_sim hs now id)

end Claim

/-! ## Final states -/

/-- The two sets of a final state. -/
inductive Final : JobState → ZKey → (String → ZKey) → Prop
  | completed : Final .completed .completed .nqcompleted
  | failed : Final .failed .failed .nqfailed
  | cancelled : Final .cancelled .cancelled .nqcancelled

section Final

variable {named : Prop} {loose : JobId → Prop} {s : Store} {A : Line} {id : JobId} {i : JobInfo}
  {st : JobState} {z : ZKey} {nq : String → ZKey}

theorem Final.terminal (hf : Final st z nq) : st.terminal := by cases hf <;> rfl

theorem Final.blank (hf : Final st z nq) : (nq "").blank := by cases hf <;> rfl

theorem Final.tracked (hf : Final st z nq) : z.Tracked named := by cases hf <;> nofun

theorem Final.tracked_mirror (hf : Final st z nq) {q : String} (hq : q ≠ "") : (nq q).Tracked named := by
  intro hb
  cases hf <;> exact absurd hb hq

theorem Final.homeKeys (hf : Final st z nq) (hs : i.state = st) : i.homeKeys = [z, nq i.queue] := by
  cases hf <;> simp [JobInfo.homeKeys, Redis.homeKeys, hs]

/-- The members of a final state's set are in that state. -/
theorem Final.of_mem (hf : Final st z nq) (h : z ∈ i.homeKeys) : i.state = st := by
  cases hf <;> cases hs : i.state <;> by_cases hg : i.group = "" <;>
    simp [JobInfo.homeKeys, Redis.homeKeys, hs, hg] at h ⊢

/-- The members of a mirror are in that state and on that queue. -/
theorem Final.of_mem_mirror (hf : Final st z nq) {q : String} (h : nq q ∈ i.homeKeys) :
    i.state = st ∧ i.queue = q := by
  cases hf <;> cases hs : i.state <;> by_cases hg : i.group = "" <;>
    simp [JobInfo.homeKeys, Redis.homeKeys, hs, hg] at h ⊢ <;> exact h.symm

/-- Deleting a finished job, on both sides. -/
theorem Rep.delete {s' : Store} (h : Rep named loose s A) (hj : A.jobs id = some i) (hd : i.state.terminal)
    {loose' : JobId → Prop} {c : JobCell} (hc : s'.cell = Function.update s.cell id c) (hi : s'.idgen = s.idgen)
    (hu : s'.unique = (dropUniqueIfOwner s (s.hash id).uniqueKey id).unique)
    (hl : ∀ j, j ≠ id → (loose' j ↔ loose j)) (hg : c.Gone named) :
    ∃ A', A.Step A' ∧ Rep named loose' s' A' ∧ ∀ j, j ≠ id → A'.jobs j = A.jobs j := by
  have hne : A.jobs id ≠ none := by rw [hj]; nofun
  refine ⟨_, .delete hj hd, Rep.set h hne hc hi ?_ rfl rfl hl hg, fun j hjd => Function.update_of_ne hjd _ _⟩
  rw [hu, ← Store.cell_fields, (h.known hj).fields.unique]
  exact dropUniqueIfOwner_release h.unique _ _

/-- A loop that deletes members of a state set. -/
theorem deleteAll_sim {del : Store → JobId → Store} {k : ZKey} (hk : k.Tracked named)
    (hcell : ∀ s v j, j ≠ v → (del s v).cell j = s.cell j)
    (hdel : ∀ s A v, Rep named loose s A → (s.zscore k v).isSome → ¬ loose v →
      ∃ A', A.Step A' ∧ Rep named loose (del s v) A' ∧ ∀ j, j ≠ v → A'.jobs j = A.jobs j)
    (h : Rep named loose s A) {victims : List JobId} (hnd : victims.Nodup)
    (hv : ∀ v ∈ victims, (s.zscore k v).isSome) :
    ∃ A', A.Steps A' ∧ Rep named loose (victims.foldl del s) A' ∧ ∀ j, loose j → A'.jobs j = A.jobs j := by
  refine foldl_local (c := Store.cell) (Q := fun c => (c.score k).isSome)
    (P := fun t => ∃ A', A.Steps A' ∧ Rep named loose t A' ∧ ∀ j, loose j → A'.jobs j = A.jobs j)
    hnd ⟨A, .refl, h, fun _ _ => rfl⟩ hv hcell ?_
  rintro t v ⟨A₁, h₁, hr₁, hl₁⟩ hs
  obtain ⟨_, _, hloose, _⟩ := hr₁.of_score hk hs
  obtain ⟨A₂, h₂, hr₂, hj₂⟩ := hdel t A₁ v hr₁ hs hloose
  refine ⟨A₂, h₁.tail h₂, hr₂, fun j hj => ?_⟩
  rw [hj₂ j (fun e => hloose (e ▸ hj)), hl₁ j hj]

/-- Pruning a queue's finished jobs. -/
theorem prune_sim (hf : Final st z nq) (h : Rep named loose s A) {q : String} (hq : q ≠ "") {victims : List JobId}
    (hnd : victims.Nodup) (hv : ∀ v ∈ victims, (s.zscore (nq q) v).isSome) :
    ∃ A', A.Steps A' ∧ Rep named loose (victims.foldl (pruneJob z (nq q)) s) A' ∧
      ∀ j, loose j → A'.jobs j = A.jobs j := by
  refine deleteAll_sim (hf.tracked_mirror hq) (fun s v j hj => ?_) (fun s A v hr hs hl => ?_) h hnd hv
  · rw [cell_pruneJob, Function.update_of_ne hj]
  · obtain ⟨i, hj, _, hk⟩ := hr.of_score (hf.tracked_mirror hq) hs
    obtain ⟨hst, rfl⟩ := hf.of_mem_mirror hk
    refine hr.delete hj (hst ▸ hf.terminal) (cell_pruneJob s v z (nq i.queue)) (pruneJob_idgen s v z _)
      (by simp [pruneJob]) (fun _ _ => Iff.rfl) ?_
    have hg := (hr.home hj hl).deleted_zremBoth hf.blank (hf.homeKeys hst)
    rwa [given_some hq] at hg

/-! ## Retention -/

theorem mem_countVictims {self want : JobId} {p : JobId → Prop} :
    ∀ {l : List JobId} {n : Nat} {acc : List JobId}, (∀ v ∈ l, p v) → (∀ v ∈ acc, p v) →
      ∀ v ∈ countVictims self want l n acc, p v
  | [], _, _, _, ha => ha
  | x :: xs, n, acc, hl, ha => by
    have hxs : ∀ v ∈ xs, p v := fun v hv => hl v (List.mem_cons_of_mem _ hv)
    unfold countVictims
    split
    · exact ha
    split
    · exact mem_countVictims hxs ha
    · refine mem_countVictims hxs ?_
      split
      · exact ha
      · intro v hv
        rcases List.mem_append.mp hv with hv | hv
        · exact ha v hv
        · exact List.mem_singleton.mp hv ▸ hl x List.mem_cons_self

theorem nodup_countVictims {self want : JobId} :
    ∀ {l : List JobId} {n : Nat} {acc : List JobId}, acc.Nodup → (countVictims self want l n acc).Nodup
  | [], _, _, ha => ha
  | x :: xs, n, acc, ha => by
    unfold countVictims
    split
    · exact ha
    split
    · exact nodup_countVictims ha
    · refine nodup_countVictims ?_
      split
      · exact ha
      · next hx => exact List.nodup_append'.mpr ⟨ha, List.nodup_singleton x, by simpa using hx⟩

theorem agedVictims_spec (s : Store) (self : JobId) (k : ZKey) (age : Option Nat) (now : ℤ) :
    (agedVictims s self k age now).Nodup ∧ ∀ v ∈ agedVictims s self k age now, (s.zscore k v).isSome := by
  unfold agedVictims
  split
  · refine ⟨(ZSet.nodup_rangeByScore _ _ _).filter _, fun v hv => ?_⟩
    obtain ⟨sc, hsc, _⟩ := ZSet.mem_of_mem_rangeByScore (List.mem_of_mem_filter hv)
    exact Option.isSome_iff_exists.mpr ⟨sc, hsc⟩
  · exact ⟨List.nodup_nil, nofun⟩

/-- The victims of a retention rule are distinct members of the queue's set. -/
theorem retentionVictims_spec (s : Store) (self : JobId) (k : ZKey) (age keep : Option Nat) (now : ℤ) :
    (retentionVictims s self k age keep now).Nodup ∧
      ∀ v ∈ retentionVictims s self k age keep now, (s.zscore k v).isSome := by
  have ha := agedVictims_spec s self k age now
  unfold retentionVictims
  dsimp only
  split
  · split
    · exact ⟨nodup_countVictims ha.1, mem_countVictims (fun v hv => ZSet.mem_of_mem_range hv) ha.2⟩
    · exact ha
  · exact ha

/-- Recording a finished job in the sets of its state. -/
theorem Rep.record (hf : Final st z nq) (h : Rep named (· = id) s A) (hj : A.jobs id = some i) (hst : i.state = st)
    (now : ℤ) : Refines named (zaddBoth s z ((given (some i.queue)).map nq) now id) A := by
  have hne : A.jobs id ≠ none := by rw [hj]; nofun
  refine Rep.set h hne (o := some i) (cell_zaddBoth s id _ _ now) (zaddBoth_idgen s id _ _ now) ?_
    (by rw [← hj, Function.update_eq_self]) rfl (fun j hjd => by simp [hjd])
    ⟨nofun, fun _ => (h.looseCell hj rfl).zaddBoth hf.blank (hf.homeKeys hst) now⟩
  rw [zaddBoth_unique]
  exact h.unique

/-- Dropping a finished job that is in no state set. -/
theorem Rep.drop (hf : Final st z nq) (h : Rep named (· = id) s A) (hj : A.jobs id = some i) (hst : i.state = st) :
    Follows named A (deleteJob (zremBoth s z ((given (some i.queue)).map nq) id) id) := by
  have hl := h.looseCell hj rfl
  have hz : ((s.cell id).zremBoth z ((given (some i.queue)).map nq)).Loose named i := by
    refine { hl.toKnown.zremBoth _ _ with score := fun k ht => ?_ }
    rw [JobCell.zremBoth_score, hl.score k ht, ite_self]
  have hdel : ∃ A', A.Step A' ∧ Refines named (deleteJob (zremBoth s z ((given (some i.queue)).map nq) id) id) A' ∧
      ∀ j, j ≠ id → A'.jobs j = A.jobs j := by
    refine h.delete hj (hst ▸ hf.terminal) (c := ((s.cell id).zremBoth z ((given (some i.queue)).map nq)).deleted)
      ?_ ?_ ?_ (fun j hjd => by simp [hjd]) hz.deleted
    · simp
    · simp
    · rw [deleteJob_unique, zremBoth_hash]
      exact dropUniqueIfOwner_congr (zremBoth_unique ..) _ _
  obtain ⟨A', hA', hr, _⟩ := hdel
  exact ⟨A', .single hA', hr⟩

/-- `finalize` for a job that has left its sets and is marked finished: it is recorded, or dropped, and its queue
is pruned. -/
theorem finalize_sim (hf : Final st z nq) (h : Rep named (· = id) s A) (hj : A.jobs id = some i) (hst : i.state = st)
    (rule : Option RetentionRule) (now : ℤ) :
    Follows named A (finalize s id z ((given (some i.queue)).map nq) rule now) := by
  have hkeep := h.record hf hj hst now
  unfold finalize applyRetention
  match rule with
  | none => exact .refl hkeep
  | some (.bool true) => exact h.drop hf hj hst
  | some (.bool false) => exact .refl hkeep
  | some (.rule age keep) =>
    dsimp only
    by_cases hq : i.queue = ""
    · -- no mirror, so nothing to prune
      by_cases hd : keep = some 0
      · simpa [hq, hd] using h.drop hf hj hst
      · simpa [hq, hd] using Follows.refl hkeep
    · rw [given_some hq, Option.map_some] at *
      by_cases hd : keep = some 0
      · obtain ⟨hnd, hv⟩ := retentionVictims_spec s id (nq i.queue) age keep now
        obtain ⟨A₁, h₁, hr₁, hl₁⟩ := prune_sim hf h hq hnd hv
        obtain ⟨A₂, h₂, hr₂⟩ := hr₁.drop hf ((hl₁ id rfl).trans hj) hst
        rw [given_some hq] at hr₂
        exact ⟨A₂, h₁.trans h₂, by simpa [hd] using hr₂⟩
      · obtain ⟨hnd, hv⟩ := retentionVictims_spec (zaddBoth s z (some (nq i.queue)) now id) id (nq i.queue) age keep now
        obtain ⟨A₁, h₁, hr₁, _⟩ := prune_sim hf hkeep hq hnd hv
        by_cases hn : age = none ∧ keep = none
        · simpa [hd, hn] using Follows.refl hkeep
        · refine ⟨A₁, h₁, ?_⟩
          simp only [hd, hn, decide_false, Bool.false_eq_true, if_false]
          exact hr₁

/-- A running job is finished and finalized: the common end of both verdicts. -/
theorem finish_sim {s' : Store} (hf : Final st z nq) (h : Refines named s A) (hj : A.jobs id = some i)
    (hl : ¬ i.state.terminal) {c : JobCell} (hc : s'.cell = Function.update s.cell id c) (hi : s'.idgen = s.idgen)
    (hu : s'.unique = A.release i.unique id) (hh : c.Loose named { i with state := st })
    (rule : Option RetentionRule) (now : ℤ) :
    Follows named A (finalize s' id z ((given (some i.queue)).map nq) rule now) := by
  have hne : A.jobs id ≠ none := by rw [hj]; nofun
  have hr : Rep named (· = id) s' { A.set id (some { i with state := st }) with unique := A.release i.unique id } :=
    Rep.set h hne hc hi hu rfl rfl (fun j hjd => by simp [hjd]) ⟨fun _ => hh, fun hn => absurd rfl hn⟩
  obtain ⟨A', hA', hr'⟩ := finalize_sim hf hr (Function.update_self ..) rfl rule now
  exact ⟨A', .head (.finish st hj hl hf.terminal) hA', hr'⟩

end Final

/-! ## Verdicts -/

/-- A verdict reaches the job while its worker still holds the lease, or does not name the recorded owner. -/
def Store.VerdictOk (s : Store) (id : JobId) (w : WorkerId) : Prop :=
  s.owner id = some w → s.state id = some .running

section Verdicts

variable {named : Prop} {s : Store} {A : Line} {id : JobId} {i : JobInfo}

theorem Rep.hash_queue {loose : JobId → Prop} (h : Rep named loose s A) (hj : A.jobs id = some i) :
    (s.hash id).queue = some i.queue := (h.known hj).fields.queue

theorem Rep.hash_group {loose : JobId → Prop} (h : Rep named loose s A) (hj : A.jobs id = some i) :
    (s.hash id).groupKey = some i.group := (h.known hj).fields.group

theorem live_of_running (h : i.state = .running) : ¬ i.state.terminal := by rw [h]; nofun

theorem fnComplete_sim (h : Refines named s A) {w : WorkerId} (hok : s.VerdictOk id w) (now : ℤ) (result : String) :
    Follows named A (fnComplete s id w now result).1 := by
  unfold fnComplete
  split
  · exact .refl h
  · next ho =>
    obtain ⟨i, hj, hst⟩ := h.of_state (hok (not_not.mp ho))
    have hloose := ((Rep.home h hj nofun).leaveRunning hst).hset (f := fun h => { h with
      state := some .completed, completedAt := some now, result := some result }) (fun _ => rfl)
      (fun _ => ⟨rfl, rfl, rfl, rfl, rfl⟩)
    simp only [h.hash_queue hj, h.hash_group hj]
    refine finish_sim .completed h hj (live_of_running hst) ?_ ?_ ?_ hloose _ now
    · simp
    · simp
    · refine @releaseUnique_release named _ A id { i with state := .completed } ?_ ?_
      · simpa using hloose.toKnown
      · simpa using h.unique

theorem fnFail_sim (h : Refines named s A) {w : WorkerId} (hok : s.VerdictOk id w) (now : ℤ) (error : String)
    (retryAt : ℤ) : Follows named A (fnFail s id w now error retryAt).1 := by
  unfold fnFail
  split
  · exact .refl h
  · next ho =>
    obtain ⟨i, hj, hst⟩ := h.of_state (hok (not_not.mp ho))
    have hleft := ((Rep.home h hj nofun).pushError error).leaveRunning hst
    have hhash : (s.pushError id error).hash id = s.hash id := rfl
    have hlive := live_of_running hst
    simp only [hhash, h.hash_queue hj, h.hash_group hj]
    split
    · split
      · have hl := hleft.hset (f := fun h => { h with state := some .pending, failedAt := some now })
          (fun _ => rfl) (fun _ => ⟨rfl, rfl, rfl, rfl, rfl⟩)
        refine h.move hj hlive .pending nofun ?_ ?_ ?_
          (hl.joinWait rfl (waitScore ((s.hash id).priority.getD 0) retryAt))
        · simp
        · simp
        · simp
      · have hl := hleft.hset (f := fun h => { h with
          state := some .scheduled, failedAt := some now, scheduledAt := some retryAt })
          (fun _ => rfl) (fun _ => ⟨rfl, rfl, rfl, rfl, rfl⟩)
        refine h.move hj hlive .scheduled nofun ?_ ?_ ?_
          (hl.zaddBoth (m := .nqscheduled) rfl rfl retryAt)
        · simp
        · simp
        · simp
    · have hloose := hleft.hset (f := fun h => { h with state := some .failed, failedAt := some now })
        (fun _ => rfl) (fun _ => ⟨rfl, rfl, rfl, rfl, rfl⟩)
      refine finish_sim .failed h hj hlive ?_ ?_ ?_ hloose _ now
      · simp
      · simp
      · refine @releaseUnique_release named _ A id { i with state := .failed } ?_ ?_
        · simpa using hloose.toKnown
        · simpa using h.unique

end Verdicts

end Eddyq.Redis
