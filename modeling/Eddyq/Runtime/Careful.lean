import Eddyq.Runtime.Held
import Mathlib.Data.List.Dedup

/-!
# Careful runs

The steps of a careful run keep the invariant (`Inv.step`): while the tasks are at work a claimed job is in one of its
places, and when the call has returned nothing is running. The guards are used where a job would be forgotten: when the
tasks are awaited no job may be late (`Held.awaited`), and when they are aborted everything must be in the snapshot
(`Held.abort`), which `reclaim_in_flight` then gives back (`Held.reclaim`).
-/

namespace Eddyq.Runtime

variable {σ : Type} {B : Backend σ} {cfg : Config} {p p' : Process σ}

/-! ## Calls to the backend -/

theorem count_rows {s s' : σ} {n : Nat} {rows : List JobId} (hi : B.inv s) (h : B.claim s n rows s') (id : JobId) :
    rows.count id + (B.running s id).toNat = (B.running s' id).toNat := by
  obtain ⟨_, hn, hidle⟩ := B.claim_rows hi h
  rw [B.claim_running hi h id]
  by_cases hid : id ∈ rows
  · rw [hidle id hid, List.Nodup.count hn, if_pos hid]
    simp [hid]
  · rw [List.count_eq_zero_of_not_mem hid]
    simp [hid]

theorem Held.commit (h : Held B p) (hi : B.inv p.store) {n : Nat} {rows : List JobId} {s : σ} {full : Bool}
    (pc : p.fetcher = .claiming n) (done : B.claim p.store n rows s) (ok : p.call.isAborted → rows = []) :
    Held B { p with
      store := s, fetcher := .claimed full rows
      log := { p.log with
        granted := p.log.granted ++ rows, late := p.log.late ++ rows, missed := p.log.missed ++ rows } } := by
  have hr : p.fetcher.rows = [] := by rw [pc]; rfl
  have hs : p.fetcher.sent = [] := by rw [pc]; rfl
  have hn : n ≤ p.idle := by
    have hp := h.permits
    rw [pc] at hp
    exact hp
  refine ⟨fun id => ?_, fun id hid => ?_, ?_, fun hc ha id hid => ?_, fun b snap hb => ⟨fun id hid => ?_, fun id hid => ?_⟩,
    fun b snap hb id hid => ?_⟩
  · have he := h.exact id
    have hc := count_rows hi done id
    simp only [count_places, hr, hs, List.count_nil, Process.handled, Process.reported, rows_claimed, sent_claimed] at he ⊢
    omega
  · refine h.flight id ?_
    rw [hs]
    exact hid
  · exact Nat.le_trans (B.claim_rows hi done).1 hn
  · have hl := h.late hc ha id
    simp only [List.mem_append, mem_underWay, hr, hs, rows_claimed, sent_claimed, List.not_mem_nil, false_or] at hid hl ⊢
    tauto
  · exact List.mem_append_right _ hid
  · have hm := (h.missed b snap hb).2 id
    rw [hs] at hm
    exact (hm hid).imp_right (List.mem_append_left _)
  · have hab : p.call.isAborted := by
      have hb : p.call = .aborted b snap := hb
      rw [hb]
      rfl
    refine h.snapped b snap hb id ?_
    rw [ok hab] at hid
    simpa [Process.places, Process.underWay, Process.handled, Process.reported, hr, hs] using hid

/-- The backend changes, but not in what is running. -/
theorem Held.restore (h : Held B p) {s : σ} (hs : ∀ id, B.running s id = B.running p.store id) :
    Held B { p with store := s } := by
  refine ⟨fun id => ?_, h.flight, h.permits, h.late, h.missed, h.snapped⟩
  show _ = (B.running s id).toNat
  rw [hs id]
  exact h.exact id

theorem running_of_empty {s s' : σ} {n : Nat} (hi : B.inv s) (h : B.claim s n [] s') (id : JobId) :
    B.running s' id = B.running s id := by
  simpa using B.claim_running hi h id

/-- A verdict commits: the job is in no other place. -/
theorem Held.report (h : Held B p) (hi : B.inv p.store) {ws ws' : List Worker} {w w' : Worker} {id : JobId} {s : σ}
    {i : Nat} (at' : p.workers = ws ++ w :: ws') (hw : w.reported = some id) (hh : w.handled = none)
    (hr' : w'.reported = none) (hh' : w'.handled = none) (hidle : p.idle ≤ i) (done : B.report p.store id s)
    {by' : List JobId} :
    Held B { p with
      store := s, workers := ws ++ w' :: ws', idle := i, log := { p.log with byWorker := by' } } := by
  have hhandled : (ws ++ w' :: ws').filterMap Worker.handled = p.workers.filterMap Worker.handled := by
    rw [at', filterMap_at, filterMap_at, hh, hh']
  have hrep : ∀ j, (p.workers.filterMap Worker.reported).count j =
      ((ws ++ w' :: ws').filterMap Worker.reported).count j + [id].count j := by
    intro j
    rw [at', filterMap_at, filterMap_at, hw, hr']
    simp only [Option.toList, List.count_append, List.count_nil]
    omega
  have hplaces : ∀ j ∈ ({ p with
      store := s, workers := ws ++ w' :: ws', idle := i, log := { p.log with byWorker := by' } } : Process σ).places,
      j ∈ p.places := by
    intro j hj
    rw [← List.count_pos_iff] at hj ⊢
    have hj' := hrep j
    simp only [count_places, Process.handled, Process.reported, hhandled] at hj ⊢
    omega
  refine ⟨fun j => ?_, fun j hj => ?_, Nat.le_trans h.permits hidle, h.late, fun b snap hb => ?_,
    fun b snap hb j hj => h.snapped b snap hb j (hplaces j hj)⟩
  · have he := h.exact j
    have hj := hrep j
    have hb := Bool.toNat_le (B.running p.store j)
    show _ = (B.running s j).toNat
    rw [B.report_running hi done j]
    simp only [count_places, Process.handled, Process.reported, hhandled] at he ⊢
    by_cases hji : j = id
    · subst hji
      simp only [List.count_singleton_self] at hj
      simp only [ne_eq, not_true_eq_false, decide_false, Bool.and_false, Bool.toNat_false]
      omega
    · rw [List.count_eq_zero_of_not_mem (l := [id]) (by simpa using hji)] at hj
      simp only [ne_eq, hji, not_false_eq_true, decide_true, Bool.and_true]
      omega
  · refine h.flight j ?_
    simp only [Process.handled, hhandled] at hj ⊢
    exact hj
  · have hm := h.missed b snap hb
    simp only [Process.handled, hhandled] at hm ⊢
    exact hm

/-! ## The claims and their ends -/

theorem Process.Settled.commit (h : p.Settled B) (hi : B.inv p.store) {n : Nat} {rows : List JobId} {s : σ} {f : Fetcher}
    {l late missed : List JobId} (done : B.claim p.store n rows s) :
    Process.Settled B { p with
      store := s, fetcher := f
      log := { p.log with granted := p.log.granted ++ rows, lost := l, late := late, missed := missed } } := by
  intro id
  have hs := h id
  have hc := count_rows hi done id
  simp only [List.count_append]
  omega

theorem Process.Settled.report (h : p.Settled B) (hi : B.inv p.store) {id : JobId} {s : σ} {ws : List Worker} {i : Nat}
    (done : B.report p.store id s) :
    Process.Settled B { p with
      store := s, workers := ws, idle := i
      log := { p.log with byWorker := p.log.byWorker ++ if B.running p.store id then [id] else [] } } := by
  intro j
  have hs := h j
  simp only [List.count_append, B.report_running hi done j]
  by_cases hj : j = id
  · subst hj
    cases hr : B.running p.store j <;> simp [hr] at hs ⊢ <;> omega
  · have hz : (if B.running p.store id then [id] else []).count j = 0 := by
      split <;> simp [Ne.symm hj]
    rw [hz]
    simpa [hj] using hs

theorem Process.Settled.reclaim (h : p.Settled B) (hi : B.inv p.store) {snap : List JobId} {s : σ} {c : Call}
    (done : B.reclaim p.store snap s) :
    Process.Settled B { p with
      store := s, call := c
      log := { p.log with givenBack := p.log.givenBack ++ snap.dedup.filter (B.running p.store) } } := by
  intro j
  have hs := h j
  have hn : (snap.dedup.filter (B.running p.store)).Nodup := (List.nodup_dedup snap).filter _
  simp only [List.count_append, B.reclaim_running hi done j, List.Nodup.count hn, List.mem_filter, List.mem_dedup]
  by_cases hj : j ∈ snap <;> cases hr : B.running p.store j <;> simp [hj, hr] at hs ⊢ <;> omega

/-! ## The call -/

theorem Held.shutdown (h : Held B p) (m : Mode) :
    Held B { p with
      call := .cancelled m
      log := { p.log with late := p.fetcher.rows ++ p.fetcher.sent ++ p.channel ++ p.log.lost } } := by
  exact ⟨h.exact, h.flight, h.permits, fun _ _ id hid => hid, nofun, nofun⟩

/-- What is in `in_flight` is in the snapshot. -/
theorem Held.snapshot (h : Held B p) {m : Mode} (pc : p.call = .cancelled m) (b : Bool) :
    Held B { p with
      call := .snapped b p.inFlight, log := { p.log with missed := p.fetcher.rows ++ p.log.lost } } := by
  refine ⟨h.exact, h.flight, h.permits, fun _ _ => ?_, fun b' snap hb => ⟨fun id hid => ?_, fun id hid => ?_⟩, nofun⟩
  · refine h.late ?_ ?_ <;> rw [pc] <;> rfl
  · exact List.mem_append_left _ hid
  · cases hb
    rcases List.mem_append.mp hid with hf | hl
    · exact Or.inl (h.flight id hf)
    · exact Or.inr (List.mem_append_right _ hl)

/-- Every place is in the snapshot. -/
theorem Held.abort (h : Held B p) {b : Bool} {snap : List JobId} (pc : p.call = .snapped b snap)
    (hm : p.log.missed = []) (hr : ∀ id ∈ p.reported, id ∈ snap) : Held B { p with call := .aborted b snap } := by
  refine ⟨h.exact, h.flight, h.permits, nofun, nofun, fun b' snap' hb id hid => ?_⟩
  cases hb
  have hrows := (h.missed b snap pc).1 id
  have hrest := (h.missed b snap pc).2 id
  have hrep := hr id
  rw [hm] at hrows hrest
  simp only [Process.places, Process.handled, Process.reported, List.mem_append, mem_underWay, List.not_mem_nil, or_false]
    at hid hrows hrest hrep
  tauto

theorem Held.abandon (h : Held B p) : Held B { p with call := .returned .abandoned } :=
  ⟨h.exact, h.flight, h.permits, nofun, nofun, nofun⟩

theorem Call.of_outcome {c : Call} {o : Outcome} (h : c.outcome = some o) :
    c.isCancelled ∧ c.isAborted = false ∧ c.isOver = false ∧ (Call.returned o).isOver = true := by
  unfold Call.outcome at h
  split at h <;> cases h <;> exact ⟨rfl, rfl, rfl, rfl⟩

/-- The tasks have ended and no job was late. -/
theorem Held.awaited (h : Held B p) {o : Outcome} (pc : p.call.outcome = some o)
    (hw : p.idleWorkers = true) (hl : p.log.late = []) (id : JobId) : B.running p.store id = false := by
  obtain ⟨hc, ha, -, -⟩ := Call.of_outcome pc
  have hlate := h.late hc ha
  rw [hl] at hlate
  have hempty : p.underWay ++ p.log.lost = [] :=
    List.eq_nil_iff_forall_not_mem.mpr (fun i hi => List.not_mem_nil (hlate i hi))
  have hstop : ∀ w ∈ p.workers, w = .stopped := by simpa [Process.idleWorkers] using hw
  have hhandled : p.handled = [] := List.filterMap_eq_nil_iff.mpr (fun w hw => by rw [hstop w hw]; rfl)
  have hreported : p.reported = [] := List.filterMap_eq_nil_iff.mpr (fun w hw => by rw [hstop w hw]; rfl)
  have he := h.exact id
  rw [List.append_eq_nil_iff] at hempty
  rw [Process.places, hempty.1, hempty.2, hhandled, hreported] at he
  cases hr : B.running p.store id
  · rfl
  · rw [hr] at he
    cases he

/-- The snapshot had every job that was running. -/
theorem Held.reclaim (h : Held B p) (hi : B.inv p.store) {b : Bool} {snap : List JobId} {s : σ}
    (pc : p.call = .aborted b snap) (done : B.reclaim p.store snap s) (id : JobId) : B.running s id = false := by
  rw [B.reclaim_running hi done id]
  cases hr : B.running p.store id
  · rfl
  · have hid : id ∈ p.places := by
      rw [← List.count_pos_iff, h.exact id, hr]
      exact Nat.one_pos
    simp [h.snapped b snap pc id hid]

/-! ## Steps and runs -/

theorem Inv.of_held (store : B.inv p.store) (settled : p.Settled B) (hn : p.call.isOver = false) (held : Held B p) :
    Inv B p :=
  ⟨store, settled, fun _ => held, fun ho => absurd (hn.symm.trans ho) nofun⟩

theorem Inv.of_stopped (store : B.inv p.store) (settled : p.Settled B) (ho : p.call.isOver = true) (ended : Stopped B p) :
    Inv B p :=
  ⟨store, settled, fun hn => absurd (ho.symm.trans hn) nofun, fun _ => ended⟩

theorem Inv.commit (h : Inv B p) {n : Nat} {rows : List JobId} {s : σ} {full : Bool} (pc : p.fetcher = .claiming n)
    (done : B.claim p.store n rows s) (ok : p.call.isAborted → rows = []) :
    Inv B { p with
      store := s, fetcher := .claimed full rows
      log := { p.log with
        granted := p.log.granted ++ rows, late := p.log.late ++ rows, missed := p.log.missed ++ rows } } := by
  have hst := B.claim_inv h.store done
  by_cases ho : p.call.isOver = true
  · refine .of_stopped hst (h.settled.commit h.store done) ho ?_
    have hab : p.call.isAborted := (h.ended ho).ended.resolve_left (fun hf => by rw [hf] at pc; cases pc)
    refine ⟨fun id => ?_, Or.inr hab⟩
    rw [ok hab] at done
    exact (running_of_empty h.store done id).trans ((h.ended ho).idle id)
  · have ho : p.call.isOver = false := by simpa using ho
    exact .of_held hst (h.settled.commit h.store done) ho ((h.held ho).commit h.store pc done ok)

theorem Inv.restore (h : Inv B p) {s : σ} (hst : B.inv s) (hrun : ∀ id, B.running s id = B.running p.store id) :
    Inv B { p with store := s } := by
  have hse : Process.Settled B { p with store := s } := by
    intro id
    have hid := h.settled id
    rw [← hrun id] at hid
    exact hid
  by_cases ho : p.call.isOver = true
  · exact .of_stopped hst hse ho ⟨fun id => (hrun id).trans ((h.ended ho).idle id), (h.ended ho).ended⟩
  · have ho : p.call.isOver = false := by simpa using ho
    exact .of_held hst hse ho ((h.held ho).restore hrun)

theorem Inv.commitDetached (h : Inv B p) {n : Nat} {s : σ} (pc : p.fetcher = .detached n)
    (done : B.claim p.store n [] s) : Inv B { p with store := s, fetcher := .stopped } := by
  have hm : Inv B { p with fetcher := .stopped } :=
    h.moves (fun hh => hh.emptyHanded (by rw [pc]; rfl) (by rw [pc]; rfl) rfl rfl (Nat.zero_le _))
      (fun _ => ⟨rfl, rfl, ⟨_, rfl⟩, fun _ => rfl⟩)
  exact hm.restore (B.claim_inv h.store done) (running_of_empty h.store done)

theorem Inv.report (h : Inv B p) {ws ws' : List Worker} {w w' : Worker} {id : JobId} {s : σ} {i : Nat}
    (at' : p.workers = ws ++ w :: ws') (hw : w.reported = some id) (hh : w.handled = none) (hr' : w'.reported = none)
    (hh' : w'.handled = none) (hidle : p.idle ≤ i) (done : B.report p.store id s) :
    Inv B { p with
      store := s, workers := ws ++ w' :: ws', idle := i
      log := { p.log with byWorker := p.log.byWorker ++ if B.running p.store id then [id] else [] } } := by
  have hst := B.report_inv h.store done
  by_cases ho : p.call.isOver = true
  · refine .of_stopped hst (h.settled.report h.store done) ho ⟨fun j => ?_, (h.ended ho).ended⟩
    show B.running s j = false
    rw [B.report_running h.store done j, (h.ended ho).idle j, Bool.false_and]
  · have ho : p.call.isOver = false := by simpa using ho
    exact .of_held hst (h.settled.report h.store done) ho
      ((h.held ho).report h.store at' hw hh hr' hh' hidle done)

/-- The channel is closed while the fetcher sends. -/
theorem Held.closed (h : Held B p) {full : Bool} {id : JobId} {rows : List JobId} (pc : p.fetcher = .entered full id rows) :
    Moves p { p with fetcher := .stopped, log := { p.log with lost := p.log.lost ++ id :: rows } } := by
  refine h.fetcherMoves (fun i => ?_) nofun (fun i hi => ?_) (fun i hi => ?_) (fun i hi => hi) (Nat.zero_le _)
  · simp [pc, Fetcher.rows, Fetcher.sent, List.count_cons]
    omega
  · simp only [pc, Fetcher.sent, rows_entered, List.mem_append, List.mem_cons, List.nil_append] at hi ⊢
    tauto
  · refine h.flight i ?_
    simp only [Fetcher.sent, List.nil_append] at hi
    simp only [List.mem_append]
    tauto

/-- The permits never run out in the loop over the rows. -/
theorem Held.no_panic (h : Held B p) {full : Bool} {id : JobId} {rows : List JobId}
    (pc : p.fetcher = .sending full (id :: rows)) : p.idle ≠ 0 := by
  have hp := h.permits
  rw [pc, need_sending, List.length_cons] at hp
  omega

/-- One step of a careful run. -/
theorem Inv.step (h : Inv B p) (hs : Step B cfg True p p') : Inv B p' := by
  cases hs with
  | claim pc live free =>
    refine h.moves (fun hh => hh.emptyHanded (by rw [pc]; rfl) (by rw [pc]; rfl) rfl rfl ?_) (fun ho => ?_)
    · exact Nat.min_le_right _ _
    · cases hc : p.call <;> simp_all [Call.isCancelled, Call.isOver]
  | commit pc done ok => exact h.commit pc done (ok trivial)
  | commitDetached pc done ok =>
    cases ok trivial
    simpa using h.commitDetached pc done
  | reply pc => exact h.moves (fun hh => hh.reply pc) (fun _ => ⟨rfl, rfl, ⟨_, rfl⟩, fun hf => by simp [hf] at pc⟩)
  | enter pc permit => exact h.moves (fun hh => hh.enter pc) (fun _ => ⟨rfl, rfl, ⟨_, rfl⟩, fun hf => by simp [hf] at pc⟩)
  | panic pc spent => exact h.moves (fun hh => absurd spent (hh.no_panic pc)) (fun _ => ⟨rfl, rfl, ⟨_, rfl⟩, fun _ => rfl⟩)
  | send pc isOpen room =>
    exact h.moves (fun hh => hh.send pc) (fun _ => ⟨rfl, rfl, ⟨_, rfl⟩, fun hf => by simp [hf] at pc⟩)
  | closed pc gone => exact h.moves (fun hh => hh.closed pc) (fun _ => ⟨rfl, rfl, ⟨_, rfl⟩, fun _ => rfl⟩)
  | @rest full pc =>
    refine h.moves (fun hh => hh.emptyHanded (by rw [pc]; rfl) (by rw [pc]; rfl) ?_ ?_ ?_)
      (fun _ => ⟨rfl, rfl, ⟨_, rfl⟩, fun hf => by simp [hf] at pc⟩)
    all_goals cases full <;> simp [Fetcher.rows, Fetcher.sent, Fetcher.need]
  | wake pc =>
    exact h.moves (fun hh => hh.emptyHanded (by rw [pc]; rfl) (by rw [pc]; rfl) rfl rfl (Nat.zero_le _))
      (fun _ => ⟨rfl, rfl, ⟨_, rfl⟩, fun hf => by simp [hf] at pc⟩)
  | stopFetcher pc off =>
    refine h.moves (fun hh => hh.emptyHanded ?_ ?_ rfl rfl (Nat.zero_le _)) (fun _ => ⟨rfl, rfl, ⟨_, rfl⟩, fun _ => rfl⟩)
    all_goals rcases pc with pc | pc <;> rw [pc] <;> rfl
  | receive at' live head => exact h.moves (fun hh => hh.receive at' head) (fun _ => ⟨rfl, rfl, ⟨_, rfl⟩, id⟩)
  | finish at' => exact h.moves (fun hh => hh.finish at') (fun _ => ⟨rfl, rfl, ⟨_, rfl⟩, id⟩)
  | report at' done => exact h.report at' rfl rfl rfl rfl (Nat.le_succ _) done
  | reportDetached at' done => exact h.report at' rfl rfl rfl rfl (Nat.le_refl _) done
  | stopWorker at' off => exact h.moves (fun hh => hh.stopWorker at') (fun _ => ⟨rfl, rfl, ⟨_, rfl⟩, id⟩)
  | shutdown m first => exact .of_held h.store h.settled rfl ((h.held (by rw [first]; rfl)).shutdown m)
  | snapshot pc kind => exact .of_held h.store h.settled rfl ((h.held (by rw [pc]; rfl)).snapshot pc _)
  | @awaited o pc fetcher workers ok =>
    obtain ⟨-, -, hn, ho⟩ := Call.of_outcome pc
    exact .of_stopped h.store h.settled ho ⟨(h.held hn).awaited pc workers (ok trivial), Or.inl fetcher⟩
  | abort pc ok =>
    exact .of_held h.store h.settled rfl ((h.held (by rw [pc]; rfl)).abort pc (ok trivial).1 (ok trivial).2)
  | @reclaim bounded snap s pc done =>
    have hh := h.held (by rw [pc]; rfl)
    refine .of_stopped (B.reclaim_inv h.store done) (h.settled.reclaim h.store done) ?_ ⟨hh.reclaim h.store pc done, ?_⟩
    · cases bounded <;> rfl
    · cases bounded <;> exact Or.inr rfl
  | abandon pc => exact .of_held h.store h.settled rfl (h.held (by rw [pc]; rfl)).abandon
  | dropFetcher off =>
    refine h.moves (fun hh => hh.leave ?_ ?_ ?_) (fun _ => ⟨rfl, rfl, ⟨_, rfl⟩, fun hf => by simp [hf]⟩)
    all_goals split <;> simp [Fetcher.rows, Fetcher.sent, Fetcher.need]
  | @dropWorker ws ws' w off at' =>
    refine h.moves (fun hh => hh.dropWorker off at' ?_ ?_) (fun _ => ⟨rfl, rfl, ⟨_, rfl⟩, id⟩)
    all_goals cases w <;> rfl
  | other done => exact h.restore (B.other_inv h.store done) (B.other_running h.store done)

theorem Inv.start {s : σ} (hs : B.inv s) (hidle : ∀ id, B.running s id = false) : Inv B (Process.start cfg s) := by
  have hhandled : (Process.start cfg s).handled = [] := by simp [Process.handled, Process.start, Worker.handled]
  have hplaces : (Process.start cfg s).places = [] := by
    simp [Process.places, Process.underWay, Process.start, Process.handled, Process.reported, Fetcher.rows, Fetcher.sent,
      Worker.handled, Worker.reported]
  refine .of_held hs (fun id => ?_) rfl ⟨fun id => ?_, fun id hid => ?_, Nat.zero_le _, ?_, ?_, ?_⟩
  · simp [Process.start, hidle id]
  · rw [hplaces, Process.start, hidle id]
    rfl
  · rw [hhandled] at hid
    exact absurd hid List.not_mem_nil
  · rintro ⟨⟩
  · rintro b snap ⟨⟩
  · rintro b snap ⟨⟩

theorem Reached.step {careful : Prop} (h : Reached B cfg careful p) (hs : Step B cfg careful p p') :
    Reached B cfg careful p' := by
  obtain ⟨s, hi, hidle, hr⟩ := h
  exact ⟨s, hi, hidle, hr.step (a := ()) hs⟩

theorem Reached.start {careful : Prop} {s : σ} (hs : B.inv s) (hidle : ∀ id, B.running s id = false) :
    Reached B cfg careful (Process.start cfg s) := ⟨s, hs, hidle, .refl _⟩

theorem Reached.inv (h : Reached B cfg True p) : Inv B p := by
  obtain ⟨s, hs, hidle, hr⟩ := h
  exact Lib.Reach.inv hr (Inv.start hs hidle) (fun _ _ _ hi hstep => hi.step hstep)

end Eddyq.Runtime
