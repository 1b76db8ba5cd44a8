import Eddyq.Runtime.Flight

/-!
# Heartbeats and sweeps

Any number of processes over one backend, by one clock. `heartbeat_loop` of a process stamps the jobs of `in_flight` every
`heartbeat_interval`, until the token is cancelled; anybody may sweep the jobs whose last stamp is too old. `Pulse` is what
the loops and the sweeps rely on: who is stamped when, and whom a sweep takes. A call takes no time, and neither do the
instructions between a claim and the entry of its rows into `in_flight` (`Cluster.Step.pass`).

`Cluster.Kept` is the invariant: what a process holds has been stamped since its last tick or, once the token is
cancelled, since one interval before. `Cluster.Kept.spared` is what follows for a sweep.
-/

namespace Eddyq.Runtime

/-- A backend with a clock. -/
structure Pulse (σ : Type) where
  inv : σ → Prop
  /-- What the calls keep as long as the verdicts are `current`. -/
  sound : σ → Prop
  /-- The verdict of this worker is that of the lease the job is under. -/
  current : σ → JobId → WorkerId → Prop
  /-- The job runs and was last stamped at that time. -/
  beat : σ → JobId → ℤ → Prop
  /-- How old a stamp a sweep with this `stale_after` lets pass. -/
  patience : ℕ → ℤ
  claim : ℤ → WorkerId → σ → Nat → List JobId → σ → Prop
  verdict : ℤ → WorkerId → σ → JobId → σ → Prop
  /-- `update_heartbeat_batch`. -/
  heartbeat : ℤ → σ → List JobId → σ → Prop
  /-- `sweep_stale`, and the jobs it recovers. -/
  sweep : ℤ → ℕ → σ → List JobId → σ → Prop
  /-- All other calls. -/
  other : σ → σ → Prop
  claim_inv : ∀ {t w s n rows s'}, inv s → claim t w s n rows s' → inv s'
  verdict_inv : ∀ {t w s id s'}, inv s → verdict t w s id s' → inv s'
  heartbeat_inv : ∀ {t s ids s'}, inv s → heartbeat t s ids s' → inv s'
  sweep_inv : ∀ {t n s ids s'}, inv s → sweep t n s ids s' → inv s'
  other_inv : ∀ {s s'}, inv s → other s s' → inv s'
  claim_sound : ∀ {t w s n rows s'}, sound s → claim t w s n rows s' → sound s'
  verdict_sound : ∀ {t w s id s'}, sound s → verdict t w s id s' → current s id w → sound s'
  heartbeat_sound : ∀ {t s ids s'}, sound s → heartbeat t s ids s' → sound s'
  sweep_sound : ∀ {t n s ids s'}, sound s → sweep t n s ids s' → sound s'
  other_sound : ∀ {s s'}, sound s → other s s' → sound s'
  claim_rows : ∀ {t w s n rows s'}, inv s → claim t w s n rows s' → rows.length ≤ n ∧ rows.Nodup
  claim_beat : ∀ {t w s n rows s' id b}, inv s → claim t w s n rows s' → beat s' id b → if id ∈ rows then b = t else beat s id b
  verdict_beat : ∀ {t w s id s' i b}, verdict t w s id s' → beat s' i b → beat s i b
  heartbeat_beat : ∀ {t s ids s' id b}, sound s → heartbeat t s ids s' → beat s' id b →
    if id ∈ ids then b = t else beat s id b
  sweep_beat : ∀ {t n s ids s' id b}, sweep t n s ids s' → beat s' id b → beat s id b
  other_beat : ∀ {s s' id b}, other s s' → beat s' id b → beat s id b
  sweep_stale : ∀ {t n s ids s' id}, sound s → sweep t n s ids s' → id ∈ ids → ∃ b, beat s id b ∧ b < t - patience n

variable {σ : Type}

/-- The backend as the loops of a process see it at a time. -/
def Pulse.service (T : Pulse σ) (careful : Prop) (t : ℤ) (w : WorkerId) : Service σ where
  inv := T.inv
  claim := T.claim t w
  verdict s id s' := T.verdict t w s id s' ∧ (careful → T.current s id w)
  other := T.other
  claim_inv := T.claim_inv
  verdict_inv hs hv := T.verdict_inv hs hv.1
  other_inv := T.other_inv
  claim_rows := T.claim_rows

/-- A process. Its loops see the store of the cluster; the `store` of `loops` is that of their last step. -/
structure Member (σ : Type) where
  loops : Loops σ
  /-- The last tick of the heartbeat loop, or its start. -/
  ticked : ℤ
  /-- When the token was cancelled. -/
  stopped : Option ℤ := none

/-- The claimed jobs until their handler has ended and they are out of `in_flight`. -/
def Loops.held (l : Loops σ) : List JobId := l.fetch.rows ++ l.channel ++ l.inHand

/-- The processes, their backend and the clock. -/
structure Cluster (σ : Type) where
  now : ℤ
  store : σ
  procs : WorkerId → Option (Member σ) := fun _ => none

/-- The configuration of the processes. -/
structure Pace where
  config : WorkerId → Config
  /-- `heartbeat_interval`, in milliseconds. -/
  interval : ℕ
  /-- `stale_after`, in milliseconds. -/
  staleAfter : ℕ

section Steps

variable (T : Pulse σ) (pace : Pace) (careful : Prop)

/-- Every process that is shut down and has jobs was shut down not too long ago. -/
def Cluster.Brief (c : Cluster σ) : Prop :=
  ∀ w m t, c.procs w = some m → m.stopped = some t → m.loops.held ≠ [] →
    c.now + pace.interval ≤ t + T.patience pace.staleAfter

/-- One step. The guards that say `careful` are asked of careful runs only. -/
inductive Cluster.Step : Cluster σ → Cluster σ → Prop
  | start {c : Cluster σ} {w : WorkerId} (fresh : c.procs w = none) :
      Step c { c with procs := Function.update c.procs w (some ⟨.start (pace.config w) c.store, c.now, none⟩) }
  /-- An instruction of a loop of a process. -/
  | turn {c : Cluster σ} {w : WorkerId} {m : Member σ} {l : Loops σ} (at' : c.procs w = some m)
      (live : l.cancelled = m.loops.cancelled)
      (step : Turn (T.service careful c.now w) (pace.config w) careful { m.loops with store := c.store } l) :
      Step c { c with store := l.store, procs := Function.update c.procs w (some { m with loops := l }) }
  /-- The token is cancelled: `shutdown_with` or `shutdown_drain_bounded`. -/
  | shutdown {c : Cluster σ} {w : WorkerId} {m : Member σ} (at' : c.procs w = some m) (on : m.stopped = none) :
      Step c { c with
        procs := Function.update c.procs w (some ⟨{ m.loops with cancelled := true }, m.ticked, some c.now⟩) }
  /-- A tick of `heartbeat_loop`; a cancelled token ends the loop first. -/
  | tick {c : Cluster σ} {w : WorkerId} {m : Member σ} {s : σ} (at' : c.procs w = some m) (on : m.stopped = none)
      (due : c.now = m.ticked + pace.interval) (done : T.heartbeat c.now c.store m.loops.inFlight s) :
      Step c { c with store := s, procs := Function.update c.procs w (some { m with ticked := c.now }) }
  /-- A process sweeps. -/
  | sweep {c : Cluster σ} {ids : List JobId} {s : σ} (done : T.sweep c.now pace.staleAfter c.store ids s)
      (ok : careful → c.Brief T pace) : Step c { c with store := s }
  /-- A client calls. -/
  | other {c : Cluster σ} {s : σ} (done : T.other c.store s) : Step c { c with store := s }
  /-- Time passes, up to the next tick, while no running fetcher has rows to enter. -/
  | pass {c : Cluster σ} {t : ℤ} (later : c.now ≤ t)
      (ticks : ∀ w m, c.procs w = some m → m.stopped = none → t ≤ m.ticked + pace.interval)
      (settled : ∀ w m, c.procs w = some m → m.stopped = none → m.loops.fetch.rows = []) : Step c { c with now := t }

/-- The states that are reached while no process has started. -/
def Cluster.Reached (c : Cluster σ) : Prop :=
  ∃ t s, T.inv s ∧ T.sound s ∧ Lib.Reach (fun c (_ : Unit) c' => Cluster.Step T pace careful c c') ⟨t, s, fun _ => none⟩ c

end Steps

/-! ## What a turn does to what is held -/

section Turn

variable {T : Pulse σ} {cfg : Config} {careful : Prop} {t : ℤ} {w : WorkerId} {l l' : Loops σ}

/-- What is held, or is claimed by this very turn. -/
structure Carries (T : Pulse σ) (t : ℤ) (l l' : Loops σ) : Prop where
  held : ∀ id ∈ l'.held, id ∈ l.held ∨ ∀ b, T.beat l'.store id b → b = t
  rows : ∀ id ∈ l'.fetch.rows, id ∈ l.fetch.rows ∨ ∀ b, T.beat l'.store id b → b = t
  beat : ∀ id b, T.beat l'.store id b → b = t ∨ T.beat l.store id b

/-- A turn that takes nothing in hand and leaves the stamps alone. -/
theorem Carries.of_subset (held : ∀ id ∈ l'.held, id ∈ l.held) (rows : ∀ id ∈ l'.fetch.rows, id ∈ l.fetch.rows)
    (beat : ∀ id b, T.beat l'.store id b → b = t ∨ T.beat l.store id b) : Carries T t l l' :=
  ⟨fun id hid => .inl (held id hid), fun id hid => .inl (rows id hid), beat⟩

theorem mem_held {id : JobId} : id ∈ l.held ↔ id ∈ l.fetch.rows ∨ id ∈ l.channel ∨ id ∈ l.inHand := by
  rw [Loops.held, List.append_assoc, List.mem_append, List.mem_append]

/-- The fetcher moves with the rows it has. -/
theorem Carries.fetcher {s : σ} {f : Fetch} {i : Nat} {ids : List JobId} {cancelled aborted : Bool}
    (rows : ∀ id ∈ f.rows, id ∈ l.fetch.rows) (beat : ∀ id b, T.beat s id b → b = t ∨ T.beat l.store id b) :
    Carries T t l { l with store := s, fetch := f, idle := i, inFlight := ids, cancelled := cancelled, aborted := aborted } := by
  refine .of_subset (fun id hid => ?_) rows beat
  rw [mem_held] at hid ⊢
  exact hid.imp_left (rows id)

/-- A worker lays down or keeps what it has in hand. -/
theorem Carries.work {s : σ} {ws ws' : List Work} {x x' : Work} {i : Nat} {ids : List JobId}
    (at' : l.workers = ws ++ x :: ws') (keep : x'.inHand = x.inHand ∨ x'.inHand = none)
    (beat : ∀ id b, T.beat s id b → b = t ∨ T.beat l.store id b) :
    Carries T t l { l with store := s, workers := ws ++ x' :: ws', idle := i, inFlight := ids } := by
  refine .of_subset (fun id hid => ?_) (fun _ hid => hid) beat
  have hsub : ∀ id ∈ (ws ++ x' :: ws').filterMap Work.inHand, id ∈ l.inHand := by
    intro id hid
    rw [Loops.inHand, at', filterMap_work]
    rw [filterMap_work] at hid
    rcases keep with hk | hk
    · rwa [hk] at hid
    · rw [hk] at hid
      simp only [Option.toList_none, List.append_nil, List.mem_append] at hid ⊢
      rcases hid with hid | hid
      · exact .inl (.inl hid)
      · exact .inr hid
  rw [mem_held] at hid ⊢
  exact hid.imp_right (.imp_right (hsub id))

/-- **One instruction** holds what was held and what it has just claimed. -/
theorem Turn.carries (hs : T.inv l.store) (ht : Turn (T.service careful t w) cfg careful l l') : Carries T t l l' := by
  have hsame : ∀ id b, T.beat l.store id b → b = t ∨ T.beat l.store id b := fun _ _ hb => .inr hb
  have hclaim : ∀ {n rows s}, T.claim t w l.store n rows s → ∀ id b, T.beat s id b → b = t ∨ T.beat l.store id b := by
    intro n rows s done id b hb
    have hif := T.claim_beat hs done hb
    split at hif
    · exact .inl hif
    · exact .inr hif
  cases ht with
  | acquire pc permit => exact .fetcher (fun _ => nofun) hsame
  | release pc => exact .fetcher (fun _ => nofun) hsame
  | read pc => exact .fetcher (fun _ => nofun) hsame
  | @claimed n rows s pc done ok =>
    have hnew : ∀ id ∈ rows, ∀ b, T.beat s id b → b = t := by
      intro id hid b hb
      have hif := T.claim_beat hs done hb
      rwa [if_pos hid] at hif
    refine ⟨fun id hid => ?_, fun id hid => .inr (hnew id hid), hclaim done⟩
    rw [mem_held] at hid ⊢
    rcases hid with hid | hid
    · exact .inr (hnew id hid)
    · exact .inl (.inr hid)
  | @failed n s pc done =>
    refine .fetcher (fun _ => nofun) ?_
    rcases done with rfl | ⟨rows, done⟩
    · exact hsame
    · exact hclaim done
  | tryAcquire pc permit => exact .fetcher (fun id hid => by rw [pc]; exact hid) hsame
  | panic pc spent => exact .fetcher (fun _ => nofun) hsame
  | forget pc => exact .fetcher (fun id hid => by rw [pc]; exact hid) hsame
  | enter pc => exact .fetcher (fun id hid => by rw [pc]; exact hid) hsame
  | @send full id rows pc isOpen room =>
    refine .of_subset (fun i hi => ?_) (fun i hi => ?_) hsame
    · rw [mem_held] at hi ⊢
      rw [pc]
      rcases hi with hi | hi | hi
      · exact .inl (List.mem_cons_of_mem _ hi)
      · rcases List.mem_append.mp hi with hi | hi
        · exact .inr (.inl hi)
        · exact .inl (List.mem_singleton.mp hi ▸ List.mem_cons_self)
      · exact .inr (.inr hi)
    · rw [pc]
      exact List.mem_cons_of_mem _ hi
  | sendFails pc gone => exact .fetcher (fun _ => nofun) hsame
  | @rest full pc => exact .fetcher (fun id hid => by cases full <;> exact absurd hid List.not_mem_nil) hsame
  | wake pc => exact .fetcher (fun _ => nofun) hsame
  | stopFetch pc off => exact .fetcher (fun _ => nofun) hsame
  | @receive ws ws' id rest at' head =>
    refine .of_subset (fun i hi => ?_) (fun _ hi => hi) hsame
    rw [mem_held] at hi ⊢
    rcases hi with hi | hi | hi
    · exact .inl hi
    · exact .inr (.inl (by rw [head]; exact List.mem_cons_of_mem _ hi))
    · have hi : i ∈ (ws ++ .received id :: ws').filterMap Work.inHand := hi
      rw [filterMap_work, List.mem_append, List.mem_append] at hi
      rw [Loops.inHand, at', filterMap_work]
      simp only [Work.inHand, Option.toList_some, Option.toList_none, List.mem_singleton, List.append_nil,
        List.mem_append] at hi ⊢
      rcases hi with (hi | rfl) | hi
      · exact .inr (.inr (.inl hi))
      · exact .inr (.inl (by rw [head]; exact List.mem_cons_self))
      · exact .inr (.inr (.inr hi))
  | call at' => exact .work at' (.inl rfl) hsame
  | unknown at' => exact .work at' (.inl rfl) hsame
  | ended at' => exact .work at' (.inl rfl) hsame
  | remove at' => exact .work at' (.inr rfl) hsame
  | report at' done =>
    refine .work at' (.inl rfl) ?_
    rcases done with rfl | ⟨done, _⟩
    · exact hsame
    · exact fun _ _ hb => .inr (T.verdict_beat done hb)
  | again at' => exact .work at' (.inl rfl) hsame
  | stopWork at' off => exact .work at' (.inl rfl) hsame
  | cancel => exact .fetcher (fun _ hid => hid) hsame
  | abort off => exact .fetcher (fun _ hid => hid) hsame
  | dropFetch off waits => exact .fetcher (fun _ => nofun) hsame
  | dropWork off at' waits => exact .work at' (.inr rfl) hsame
  | other done => exact .fetcher (fun _ hid => hid) (fun _ _ hb => .inr (T.other_beat done hb))

/-- A careful turn keeps the backend sound. -/
theorem Turn.sound (hs : T.sound l.store) (ht : Turn (T.service True t w) cfg True l l') : T.sound l'.store := by
  cases ht with
  | claimed _ done _ => exact T.claim_sound hs done
  | failed _ done =>
    rcases done with rfl | ⟨rows, done⟩
    · exact hs
    · exact T.claim_sound hs done
  | report _ done =>
    rcases done with rfl | ⟨done, current⟩
    · exact hs
    · exact T.verdict_sound hs done (current trivial)
  | other done => exact T.other_sound hs done
  | _ => exact hs

end Turn

/-! ## The invariant -/

section Kept

variable (T : Pulse σ) (pace : Pace)

/-- What a process holds has been stamped since. -/
def Member.floor (m : Member σ) : ℤ :=
  match m.stopped with
  | some t => t - pace.interval
  | none => m.ticked

/-- What holds of a process at a time, in a store. -/
structure Member.Kept (now : ℤ) (s : σ) (m : Member σ) : Prop where
  once : m.loops.Once
  clock : m.stopped = none → m.ticked ≤ now ∧ now ≤ m.ticked + pace.interval
  past : ∀ t, m.stopped = some t → t ≤ now
  /-- The rows that are not in `in_flight` have been claimed now. -/
  fresh : m.stopped = none → ∀ id ∈ m.loops.fetch.rows, ∀ b, T.beat s id b → now ≤ b
  young : ∀ id ∈ m.loops.held, ∀ b, T.beat s id b → m.floor pace ≤ b

/-- The invariant of careful runs. -/
structure Cluster.Kept (c : Cluster σ) : Prop where
  inv : T.inv c.store
  sound : T.sound c.store
  procs : ∀ w m, c.procs w = some m → m.Kept T pace c.now c.store

variable {T pace} {now : ℤ} {s s' : σ} {m : Member σ} {c c' : Cluster σ}

theorem Member.Kept.floor_le (h : m.Kept T pace now s) : m.floor pace ≤ now := by
  unfold Member.floor
  split
  · next t ht =>
    have hp := h.past t ht
    omega
  · next ht => exact (h.clock ht).1

/-- Other calls leave the stamps alone or put the time on them. -/
theorem Member.Kept.mono (h : m.Kept T pace now s) (hb : ∀ id b, T.beat s' id b → b = now ∨ T.beat s id b) :
    m.Kept T pace now s' := by
  refine ⟨h.once, h.clock, h.past, fun hon id hid b hbeat => ?_, fun id hid b hbeat => ?_⟩
  · rcases hb id b hbeat with rfl | hold
    · exact le_refl _
    · exact h.fresh hon id hid b hold
  · rcases hb id b hbeat with rfl | hold
    · exact h.floor_le
    · exact h.young id hid b hold

/-- A turn of the process. -/
theorem Member.Kept.turn (h : m.Kept T pace now s) (hs : T.inv s) {w : WorkerId} {l : Loops σ}
    (ht : Turn (T.service True now w) (pace.config w) True { m.loops with store := s } l) :
    ({ m with loops := l } : Member σ).Kept T pace now l.store := by
  have hold : Loops.Once { m.loops with store := s } := ⟨h.once.nodup, h.once.flight⟩
  have hheld := ht.carries hs
  refine ⟨hold.turn hs ht, h.clock, h.past, fun hon id hid b hbeat => ?_, fun id hid b hbeat => ?_⟩
  · rcases hheld.rows id hid with hin | hnow
    · rcases hheld.beat id b hbeat with rfl | hb
      · exact le_refl _
      · exact h.fresh hon id hin b hb
    · exact (hnow b hbeat).ge
  · show m.floor pace ≤ b
    rcases hheld.held id hid with hin | hnow
    · rcases hheld.beat id b hbeat with rfl | hb
      · exact h.floor_le
      · exact h.young id hin b hb
    · rw [hnow b hbeat]
      exact h.floor_le

/-- A tick stamps what is in `in_flight`; what is not has been stamped now. -/
theorem Member.Kept.tick (h : m.Kept T pace now s) (hs : T.sound s) (on : m.stopped = none)
    (done : T.heartbeat now s m.loops.inFlight s') : ({ m with ticked := now } : Member σ).Kept T pace now s' := by
  have hbeat : ∀ id b, T.beat s' id b → b = now ∨ T.beat s id b := by
    intro id b hb
    have hif := T.heartbeat_beat hs done hb
    split at hif
    · exact .inl hif
    · exact .inr hif
  have hmono := h.mono hbeat
  refine ⟨h.once, fun _ => ⟨le_refl _, by show now ≤ now + (pace.interval : ℤ); omega⟩, h.past, hmono.fresh, fun id hid b hb => ?_⟩
  have hfloor : Member.floor pace { m with ticked := now } = now := by
    unfold Member.floor
    rw [on]
  rw [hfloor]
  rcases mem_held.mp hid with hrow | hrest
  · exact hmono.fresh on id hrow b hb
  · have hin : id ∈ m.loops.inFlight := by
      refine h.once.flight id ?_
      rw [List.append_assoc]
      exact List.mem_append_right _ (List.mem_append.mpr hrest)
    have hif := T.heartbeat_beat hs done hb
    rw [if_pos hin] at hif
    exact hif.ge

theorem Member.Kept.shutdown (h : m.Kept T pace now s) (on : m.stopped = none) :
    Member.Kept T pace now s ⟨{ m.loops with cancelled := true }, m.ticked, some now⟩ := by
  refine ⟨⟨h.once.nodup, h.once.flight⟩, nofun, fun t ht => (Option.some.inj ht).ge, nofun, fun id hid b hb => ?_⟩
  have hold := h.young id hid b hb
  have hclock := (h.clock on).2
  unfold Member.floor at hold ⊢
  rw [on] at hold
  dsimp only at hold ⊢
  omega

theorem Member.Kept.start (cfg : Config) (now : ℤ) (s s' : σ) : Member.Kept T pace now s ⟨.start cfg s', now, none⟩ := by
  have hnone : (Loops.start cfg s').held = [] := by
    simp [Loops.start, Loops.held, Loops.inHand, Fetch.rows, List.filterMap_eq_nil_iff, Work.inHand]
  refine ⟨.start cfg s', fun _ => ⟨le_refl _, ?_⟩, fun t ht => absurd ht.symm (Option.some_ne_none t),
    fun _ id hid => absurd hid List.not_mem_nil, fun id hid => ?_⟩
  · show now ≤ now + (pace.interval : ℤ)
    omega
  have hid : id ∈ (Loops.start cfg s').held := hid
  rw [hnone] at hid
  cases hid

theorem Member.Kept.pass (h : m.Kept T pace now s) {t : ℤ} (later : now ≤ t)
    (ticks : m.stopped = none → t ≤ m.ticked + pace.interval) (settled : m.stopped = none → m.loops.fetch.rows = []) :
    m.Kept T pace t s := by
  refine ⟨h.once, fun on => ⟨(h.clock on).1.trans later, ticks on⟩, fun u hu => (h.past u hu).trans later, fun on id hid => ?_,
    h.young⟩
  rw [settled on] at hid
  cases hid

/-- One process is replaced, and the others see what has become of the store. -/
theorem Cluster.Kept.update (h : c.Kept T pace) {w : WorkerId} {s' : σ} {m' : Member σ} (inv : T.inv s') (sound : T.sound s')
    (own : m'.Kept T pace c.now s') (hb : ∀ id b, T.beat s' id b → b = c.now ∨ T.beat c.store id b) :
    Cluster.Kept T pace { c with store := s', procs := Function.update c.procs w (some m') } := by
  refine ⟨inv, sound, fun v m hm => ?_⟩
  by_cases hv : v = w
  · subst hv
    have hm : Function.update c.procs v (some m') v = some m := hm
    rw [Function.update_self] at hm
    cases hm
    exact own
  · have hm : Function.update c.procs w (some m') v = some m := hm
    rw [Function.update_of_ne hv] at hm
    exact (h.procs v m hm).mono hb

/-- **One step of a careful run.** -/
theorem Cluster.Kept.step (h : c.Kept T pace) (hs : Cluster.Step T pace True c c') : c'.Kept T pace := by
  have hsame : ∀ id b, T.beat c.store id b → b = c.now ∨ T.beat c.store id b := fun _ _ hb => .inr hb
  cases hs with
  | start fresh => exact h.update h.inv h.sound (.start _ _ _ _) hsame
  | turn at' live step =>
    exact h.update (step.store h.inv) (step.sound h.sound) ((h.procs _ _ at').turn h.inv step) (step.carries h.inv).beat
  | shutdown at' on => exact h.update h.inv h.sound ((h.procs _ _ at').shutdown on) hsame
  | tick at' on due done =>
    refine h.update (T.heartbeat_inv h.inv done) (T.heartbeat_sound h.sound done) ((h.procs _ _ at').tick h.sound on done)
      (fun id b hb => ?_)
    have hif := T.heartbeat_beat h.sound done hb
    split at hif
    · exact .inl hif
    · exact .inr hif
  | sweep done ok =>
    exact ⟨T.sweep_inv h.inv done, T.sweep_sound h.sound done,
      fun w m hm => (h.procs w m hm).mono (fun _ _ hb => .inr (T.sweep_beat done hb))⟩
  | other done =>
    exact ⟨T.other_inv h.inv done, T.other_sound h.sound done,
      fun w m hm => (h.procs w m hm).mono (fun _ _ hb => .inr (T.other_beat done hb))⟩
  | pass later ticks settled =>
    exact ⟨h.inv, h.sound, fun w m hm => (h.procs w m hm).pass later (ticks w m hm) (settled w m hm)⟩

theorem Cluster.Reached.kept (h : c.Reached T pace True) : c.Kept T pace := by
  obtain ⟨t, s, inv, sound, hr⟩ := h
  exact Lib.Reach.inv hr ⟨inv, sound, nofun⟩ (fun _ _ _ hc hs => hc.step hs)

/-- **What a process holds is young enough**: its last stamp is not older than a sweep lets pass. -/
theorem Cluster.Kept.spared (h : c.Kept T pace) (hp : (pace.interval : ℤ) ≤ T.patience pace.staleAfter)
    (brief : c.Brief T pace) {w : WorkerId} (hm : c.procs w = some m) {id : JobId} (hid : id ∈ m.loops.held) {b : ℤ}
    (hb : T.beat c.store id b) : c.now - T.patience pace.staleAfter ≤ b := by
  have hk := h.procs w m hm
  have hyoung := hk.young id hid b hb
  unfold Member.floor at hyoung
  split at hyoung
  · next t ht =>
    have hne : m.loops.held ≠ [] := fun he => by rw [he] at hid; cases hid
    have hbrief := brief w m t hm ht hne
    omega
  · next ht =>
    have hclock := (hk.clock ht).2
    omega

end Kept

end Eddyq.Runtime
