import Eddyq.Runtime.Tasks

/-!
# Where the claimed jobs are

A job that is running under the process is in exactly one place: in the fetcher's hands, in the channel, with a worker,
or lost with a task that was dropped (`Held.exact`). Every job that a worker can still get is in `in_flight`
(`Held.flight`), and the fetcher never holds more rows than there are permits (`Held.permits`). What is on its way to a
worker after the cancellation is recorded as late, and what the snapshot does not list as missed (`Held.late`,
`Held.missed`).
-/

namespace Eddyq.Runtime

variable {σ : Type}

/-- How many rows a fetcher may still put into `in_flight`. -/
def Fetcher.need : Fetcher → Nat
  | .claiming n => n
  | f => f.rows.length

/-- The jobs on their way to a worker. -/
def Process.underWay (p : Process σ) : List JobId := p.fetcher.rows ++ p.fetcher.sent ++ p.channel

def Process.handled (p : Process σ) : List JobId := p.workers.filterMap Worker.handled

def Process.reported (p : Process σ) : List JobId := p.workers.filterMap Worker.reported

/-- All places where a job can be. -/
def Process.places (p : Process σ) : List JobId := p.underWay ++ p.handled ++ p.reported ++ p.log.lost

/-- The claims of a job and their ends. -/
def Process.Settled (B : Backend σ) (p : Process σ) : Prop :=
  ∀ id, p.log.granted.count id = p.log.byWorker.count id + p.log.givenBack.count id + (B.running p.store id).toNat

/-- Until the jobs are given back. -/
structure Held (B : Backend σ) (p : Process σ) : Prop where
  exact : ∀ id, p.places.count id = (B.running p.store id).toNat
  flight : ∀ id ∈ p.fetcher.sent ++ p.channel ++ p.handled, id ∈ p.inFlight
  permits : p.fetcher.need ≤ p.idle
  late : p.call.isCancelled → p.call.isAborted = false → ∀ id ∈ p.underWay ++ p.log.lost, id ∈ p.log.late
  missed : ∀ b snap, p.call = .snapped b snap → (∀ id ∈ p.fetcher.rows, id ∈ p.log.missed) ∧
    ∀ id ∈ p.fetcher.sent ++ p.channel ++ p.handled ++ p.log.lost, id ∈ snap ∨ id ∈ p.log.missed
  snapped : ∀ b snap, p.call = .aborted b snap → ∀ id ∈ p.places, id ∈ snap

/-- After the call has returned, unless it abandoned its jobs. -/
structure Stopped (B : Backend σ) (p : Process σ) : Prop where
  idle : ∀ id, B.running p.store id = false
  ended : p.fetcher = .stopped ∨ p.call.isAborted

/-- The call has returned, and not by abandoning. -/
def Call.isOver : Call → Bool
  | .returned .abandoned => false
  | .returned _ => true
  | _ => false

/-- The invariant of careful runs. -/
structure Inv (B : Backend σ) (p : Process σ) : Prop where
  store : B.inv p.store
  settled : p.Settled B
  held : p.call.isOver = false → Held B p
  ended : p.call.isOver = true → Stopped B p

/-! ## Moves -/

/-- The claimed jobs change places, and nothing else changes. -/
structure Moves (p p' : Process σ) : Prop where
  store : p'.store = p.store
  call : p'.call = p.call
  log : ∃ l, p'.log = { p.log with lost := l }
  places : ∀ id, p'.places.count id = p.places.count id
  rows : ∀ id ∈ p'.fetcher.rows, id ∈ p.fetcher.rows
  known : ∀ id ∈ p'.fetcher.sent ++ p'.channel ++ p'.handled ++ p'.log.lost,
    id ∈ p.fetcher.rows ∨ id ∈ p.fetcher.sent ++ p.channel ++ p.handled ++ p.log.lost
  way : p.call.isAborted = false → ∀ id ∈ p'.underWay ++ p'.log.lost, id ∈ p.underWay ++ p.log.lost
  flight : ∀ id ∈ p'.fetcher.sent ++ p'.channel ++ p'.handled, id ∈ p'.inFlight
  permits : p'.fetcher.need ≤ p'.idle

variable {B : Backend σ} {p p' : Process σ}

theorem Held.once (h : Held B p) (id : JobId) : p.places.count id ≤ 1 := by
  rw [h.exact id]
  exact Bool.toNat_le _

/-- Moves keep the invariant. -/
theorem Held.moves (h : Held B p) (hm : Moves p p') : Held B p' := by
  obtain ⟨l, hlog⟩ := hm.log
  have hmem : ∀ id ∈ p'.places, id ∈ p.places := by
    intro id hid
    rw [← List.count_pos_iff] at hid ⊢
    rwa [← hm.places id]
  refine ⟨fun id => ?_, hm.flight, hm.permits, fun hc ha id hid => ?_, fun m snap hs => ⟨fun id hid => ?_, fun id hid => ?_⟩,
    fun m snap hs id hid => ?_⟩
  · rw [hm.places id, hm.store]
    exact h.exact id
  · rw [hm.call] at hc ha
    have hl := h.late hc ha id (hm.way ha id hid)
    rw [hlog]
    exact hl
  · rw [hm.call] at hs
    rw [hlog]
    exact (h.missed m snap hs).1 id (hm.rows id hid)
  · rw [hm.call] at hs
    rw [hlog]
    rcases hm.known id hid with hr | hk
    · exact Or.inr ((h.missed m snap hs).1 id hr)
    · exact (h.missed m snap hs).2 id hk
  · rw [hm.call] at hs
    exact h.snapped m snap hs id (hmem id hid)

theorem Inv.moves (h : Inv B p) (hm : Held B p → Moves p p')
    (hover : p.call.isOver = true → p'.store = p.store ∧ p'.call = p.call ∧ (∃ l, p'.log = { p.log with lost := l }) ∧
      (p.fetcher = .stopped → p'.fetcher = .stopped)) : Inv B p' := by
  by_cases ho : p.call.isOver = true
  · obtain ⟨hs, hc, ⟨l, hl⟩, hf⟩ := hover ho
    have hst := h.ended ho
    refine ⟨hs ▸ h.store, fun id => ?_, fun hn => ?_, fun _ => ⟨fun id => ?_, ?_⟩⟩
    · rw [hl, hs]
      exact h.settled id
    · rw [hc, ho] at hn
      cases hn
    · rw [hs]
      exact hst.idle id
    · rw [hc]
      exact hst.ended.imp hf id
  · have ho : p.call.isOver = false := by simpa using ho
    have hh := h.held ho
    have hm := hm hh
    obtain ⟨l, hl⟩ := hm.log
    refine ⟨hm.store ▸ h.store, fun id => ?_, fun _ => hh.moves hm, fun hn => ?_⟩
    · rw [hl, hm.store]
      exact h.settled id
    · rw [hm.call, ho] at hn
      cases hn

/-! ## The fetcher -/

section Fetcher

variable (full : Bool) (id : JobId) (rows : List JobId)

@[simp] theorem rows_claimed : (Fetcher.claimed full rows).rows = rows := rfl
@[simp] theorem rows_sending : (Fetcher.sending full rows).rows = rows := rfl
@[simp] theorem rows_entered : (Fetcher.entered full id rows).rows = rows := rfl
@[simp] theorem sent_claimed : (Fetcher.claimed full rows).sent = [] := rfl
@[simp] theorem sent_sending : (Fetcher.sending full rows).sent = [] := rfl
@[simp] theorem sent_entered : (Fetcher.entered full id rows).sent = [id] := rfl
@[simp] theorem need_claimed : (Fetcher.claimed full rows).need = rows.length := rfl
@[simp] theorem need_sending : (Fetcher.sending full rows).need = rows.length := rfl
@[simp] theorem need_entered : (Fetcher.entered full id rows).need = rows.length := rfl

end Fetcher

@[simp]
theorem count_places (p : Process σ) (id : JobId) : p.places.count id = p.fetcher.rows.count id + p.fetcher.sent.count id +
    p.channel.count id + p.handled.count id + p.reported.count id + p.log.lost.count id := by
  simp [Process.places, Process.underWay, Nat.add_assoc]

@[simp]
theorem mem_underWay {id : JobId} :
    id ∈ p.underWay ↔ id ∈ p.fetcher.rows ∨ id ∈ p.fetcher.sent ∨ id ∈ p.channel := by
  simp [Process.underWay]

/-- The fetcher and the channel move. -/
theorem Held.fetcherMoves (h : Held B p) {f : Fetcher} {c fl l : List JobId} {i : Nat}
    (places : ∀ id, f.rows.count id + f.sent.count id + c.count id + l.count id =
      p.fetcher.rows.count id + p.fetcher.sent.count id + p.channel.count id + p.log.lost.count id)
    (rows : ∀ id ∈ f.rows, id ∈ p.fetcher.rows)
    (known : ∀ id ∈ f.sent ++ c ++ l, id ∈ p.fetcher.rows ++ p.fetcher.sent ++ p.channel ++ p.log.lost)
    (flight : ∀ id ∈ f.sent ++ c, id ∈ fl) (grow : ∀ id ∈ p.inFlight, id ∈ fl)
    (permits : f.need ≤ i) :
    Moves p { p with fetcher := f, idle := i, channel := c, inFlight := fl, log := { p.log with lost := l } } := by
  refine ⟨rfl, rfl, ⟨l, rfl⟩, fun id => ?_, rows, fun id hid => ?_, fun _ id hid => ?_, fun id hid => ?_, permits⟩
  · have hc := places id
    simp only [count_places, Process.handled, Process.reported]
    omega
  · have hk := known id
    simp only [List.mem_append, Process.handled] at hid hk ⊢
    grind
  · have hr := rows id
    have hk := known id
    simp only [List.mem_append, mem_underWay] at hid hk ⊢
    grind
  · have hfl := flight id
    have hh := h.flight id
    simp only [List.mem_append, Process.handled] at hid hfl hh
    rcases hid with hid | hid
    · exact hfl hid
    · exact grow id (hh (Or.inr hid))

/-- The fetcher has nothing in its hands, before and after. -/
theorem Held.emptyHanded (h : Held B p) {f : Fetcher} (hr : p.fetcher.rows = []) (hs : p.fetcher.sent = [])
    (hr' : f.rows = []) (hs' : f.sent = []) (hn : f.need ≤ p.idle) : Moves p { p with fetcher := f } := by
  refine h.fetcherMoves (l := p.log.lost) (fun i => ?_) (fun i hi => ?_) (fun i hi => ?_) (fun i hi => ?_)
    (fun i hi => hi) hn
  · rw [hr, hs, hr', hs']
  · rw [hr'] at hi
    exact absurd hi List.not_mem_nil
  · rw [hs'] at hi
    simpa [hr, hs] using hi
  · have hf := h.flight i
    rw [hs'] at hi
    simp only [hs, List.mem_append] at hf hi
    exact hf (Or.inl hi)

theorem Held.reply (h : Held B p) {full : Bool} {rows : List JobId} (pc : p.fetcher = .claimed full rows) :
    Moves p { p with fetcher := .sending full rows } := by
  have hp := h.permits
  refine h.fetcherMoves (l := p.log.lost) (fun i => ?_) (fun i hi => ?_) (fun i hi => ?_) (fun i hi => ?_)
    (fun i hi => hi) ?_
  · simp [pc]
  · simpa [pc] using hi
  · simp only [pc, rows_claimed, sent_claimed, sent_sending, List.mem_append, List.nil_append] at hi ⊢
    grind
  · have hf := h.flight i
    simp only [pc, sent_claimed, sent_sending, List.mem_append, List.nil_append] at hf hi
    exact hf (Or.inl hi)
  · simpa [pc] using hp

theorem Held.enter (h : Held B p) {full : Bool} {id : JobId} {rows : List JobId}
    (pc : p.fetcher = .sending full (id :: rows)) :
    Moves p { p with fetcher := .entered full id rows, idle := p.idle - 1, inFlight := p.inFlight.insert id } := by
  have hp := h.permits
  refine h.fetcherMoves (l := p.log.lost) (fun i => ?_) (fun i hi => ?_) (fun i hi => ?_) (fun i hi => ?_)
    (fun i hi => ?_) ?_
  · simp [pc, List.count_cons, Nat.add_right_comm]
  · simp only [pc, rows_sending, rows_entered] at hi ⊢
    exact List.mem_cons_of_mem _ hi
  · simp only [pc, rows_sending, sent_sending, sent_entered, List.mem_append, List.mem_cons, List.append_nil] at hi ⊢
    grind
  · have hf := h.flight i
    simp only [pc, sent_sending, sent_entered, List.mem_append, List.mem_singleton, List.nil_append] at hf hi
    rw [List.mem_insert_iff]
    exact hi.imp_right (fun hc => hf (Or.inl hc))
  · rw [List.mem_insert_iff]
    exact Or.inr hi
  · simp only [pc, need_sending, need_entered, List.length_cons] at hp ⊢
    omega

theorem Held.send (h : Held B p) {full : Bool} {id : JobId} {rows : List JobId} (pc : p.fetcher = .entered full id rows) :
    Moves p { p with fetcher := .sending full rows, channel := p.channel ++ [id] } := by
  have hp := h.permits
  refine h.fetcherMoves (l := p.log.lost) (fun i => ?_) (fun i hi => ?_) (fun i hi => ?_) (fun i hi => ?_)
    (fun i hi => hi) ?_
  · simp [pc, List.count_cons]
    omega
  · simpa [pc] using hi
  · simp only [pc, rows_entered, sent_sending, sent_entered, List.mem_append, List.mem_singleton, List.nil_append] at hi ⊢
    grind
  · have hf := h.flight i
    simp only [pc, sent_sending, sent_entered, List.mem_append, List.mem_singleton, List.nil_append] at hf hi
    grind
  · simpa [pc] using hp

/-- The fetcher ends and leaves what it has in its hands. -/
theorem Held.leave (h : Held B p) {f : Fetcher} (hr : f.rows = []) (hs : f.sent = []) (hn : f.need ≤ p.idle) :
    Moves p { p with fetcher := f, log := { p.log with lost := p.log.lost ++ p.fetcher.rows ++ p.fetcher.sent } } := by
  have hf := h.flight
  refine h.fetcherMoves (fun i => ?_) (fun i hi => ?_) (fun i hi => ?_) (fun i hi => ?_) (fun i hi => hi) hn
  · simp [hr, hs]
    omega
  · rw [hr] at hi
    exact absurd hi List.not_mem_nil
  · simp only [hs, List.mem_append, List.nil_append] at hi ⊢
    grind
  · rw [hs] at hi
    exact hf i (by simp_all)

/-! ## The workers -/

theorem filterMap_at (f : Worker → Option JobId) (ws ws' : List Worker) (w : Worker) :
    (ws ++ w :: ws').filterMap f = ws.filterMap f ++ (f w).toList ++ ws'.filterMap f := by
  rw [List.filterMap_append, List.filterMap_cons]
  cases f w <;> simp

/-- One worker moves, with the head of the channel perhaps. -/
theorem Held.workerMoves (h : Held B p) {ws ws' : List Worker} {w w' : Worker} (at' : p.workers = ws ++ w :: ws')
    {c fl l : List JobId} {i : Nat}
    (places : ∀ id, c.count id + w'.handled.toList.count id + w'.reported.toList.count id + l.count id =
      p.channel.count id + w.handled.toList.count id + w.reported.toList.count id + p.log.lost.count id)
    (known : ∀ id ∈ c ++ w'.handled.toList ++ l, id ∈ p.channel ++ w.handled.toList ++ p.log.lost)
    (way : p.call.isAborted = false → ∀ id ∈ c ++ l, id ∈ p.channel ++ p.log.lost)
    (flight : ∀ id ∈ p.fetcher.sent ++ c ++ ws.filterMap Worker.handled ++ w'.handled.toList ++
      ws'.filterMap Worker.handled, id ∈ fl) (permits : p.idle ≤ i) :
    Moves p { p with
      workers := ws ++ w' :: ws', idle := i, channel := c, inFlight := fl, log := { p.log with lost := l } } := by
  have hp := h.permits
  refine ⟨rfl, rfl, ⟨l, rfl⟩, fun id => ?_, fun _ hid => hid, fun id hid => ?_, fun ha id hid => ?_, fun id hid => ?_,
    Nat.le_trans hp permits⟩
  · have hc := places id
    simp only [count_places, Process.handled, Process.reported, at', filterMap_at, List.count_append]
    omega
  · have hk := known id
    simp only [Process.handled, at', filterMap_at, List.mem_append] at hid hk ⊢
    grind
  · have hw := way ha id
    simp only [List.mem_append, mem_underWay] at hid hw ⊢
    grind
  · refine flight id ?_
    simp only [Process.handled, filterMap_at, List.mem_append] at hid ⊢
    grind

theorem Held.receive (h : Held B p) {ws ws' : List Worker} (at' : p.workers = ws ++ .waiting :: ws') {id : JobId}
    {rest : List JobId} (head : p.channel = id :: rest) :
    Moves p { p with workers := ws ++ .handling id :: ws', channel := rest } := by
  refine h.workerMoves at' (l := p.log.lost) (fun i => ?_) (fun i hi => ?_) (fun _ i hi => ?_) (fun i hi => ?_)
    (Nat.le_refl _)
  · simp [head, List.count_cons, Worker.handled, Worker.reported]
  · simp only [head, Worker.handled, Option.toList, List.mem_append, List.mem_cons] at hi ⊢
    grind
  · simp only [head, List.mem_append, List.mem_cons] at hi ⊢
    grind
  · refine h.flight i ?_
    simp only [Process.handled, at', filterMap_at, head, Worker.handled, Option.toList, List.mem_append, List.mem_cons]
      at hi ⊢
    grind

/-- The job leaves `in_flight`, where it was the only one of its id. -/
theorem Held.finish (h : Held B p) {ws ws' : List Worker} {id : JobId} (at' : p.workers = ws ++ .handling id :: ws') :
    Moves p { p with workers := ws ++ .reporting id :: ws', inFlight := p.inFlight.filter (· ≠ id) } := by
  refine h.workerMoves at' (l := p.log.lost) (fun i => ?_) (fun i hi => ?_) (fun _ i hi => hi) (fun i hi => ?_)
    (Nat.le_refl _)
  · simp [Worker.handled, Worker.reported]
  · simp only [Worker.handled, Option.toList, List.mem_append, List.not_mem_nil, or_false] at hi ⊢
    grind
  · have hf := h.flight i
    have honce := h.once id
    simp only [Process.handled, Process.reported, at', filterMap_at, Worker.handled, Worker.reported, Option.toList,
      List.mem_append, List.not_mem_nil, or_false, count_places, List.count_append, List.count_singleton_self] at hf hi honce
    have hne : i ≠ id := by
      rintro rfl
      have hpos : 0 < p.fetcher.sent.count i ∨ 0 < p.channel.count i ∨ 0 < (ws.filterMap Worker.handled).count i ∨
          0 < (ws'.filterMap Worker.handled).count i := by
        simp only [List.count_pos_iff]
        grind
      omega
    refine List.mem_filter.mpr ⟨hf ?_, by simpa using hne⟩
    grind

/-- A worker that waits ends. -/
theorem Held.stopWorker (h : Held B p) {ws ws' : List Worker} (at' : p.workers = ws ++ .waiting :: ws') :
    Moves p { p with workers := ws ++ .stopped :: ws' } := by
  refine h.workerMoves at' (l := p.log.lost) (fun i => rfl) (fun i hi => hi) (fun _ i hi => hi) (fun i hi => ?_)
    (Nat.le_refl _)
  refine h.flight i ?_
  simp only [Process.handled, at', filterMap_at, Worker.handled, Option.toList, List.mem_append, List.not_mem_nil,
    or_false] at hi ⊢
  grind

/-- A worker is dropped: the job of a handler is lost, a verdict stays under way. -/
theorem Held.dropWorker (h : Held B p) (off : p.call.isAborted = true) {ws ws' : List Worker} {w w' : Worker}
    (at' : p.workers = ws ++ w :: ws') (hh : w'.handled = none) (hr : w'.reported = w.reported) :
    Moves p { p with workers := ws ++ w' :: ws', log := { p.log with lost := p.log.lost ++ w.handled.toList } } := by
  refine h.workerMoves at' (fun i => ?_) (fun i hi => ?_) (fun ha => ?_) (fun i hi => ?_) (Nat.le_refl _)
  · simp [hh, hr]
    omega
  · simp only [hh, Option.toList, List.mem_append, List.not_mem_nil, or_false] at hi ⊢
    grind
  · rw [off] at ha
    cases ha
  · refine h.flight i ?_
    simp only [Process.handled, at', filterMap_at, hh, Option.toList, List.mem_append, List.not_mem_nil, or_false] at hi ⊢
    grind

end Eddyq.Runtime
