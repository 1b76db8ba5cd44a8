import Eddyq.Lib.Runs
import Eddyq.Runtime.Tasks

/-!
# The loops of the runtime, instruction by instruction

`Tasks` lets the tasks take turns at their `await` points. The runtime has several threads, so that a worker may run
between any two instructions of the fetcher: here `fetch_loop` and `worker_loop` take a step for each access to the
semaphore, the channel and `in_flight`. A permit is in the semaphore, in the fetcher's hand, or stands for a job whose
permit was forgotten; it goes back when the guard of the worker's iteration is dropped. `Loops.Balance` is the balance of
the permits until the token is cancelled, `Loops.Balanced` what follows from it.

The backend is what its claims return (`Service`): at most as many distinct rows as asked for. Nothing is assumed of the
jobs in the hands of the process, since others may sweep them meanwhile.
-/

namespace Eddyq.Runtime

/-- What the loops see of a backend. -/
structure Service (σ : Type) where
  inv : σ → Prop
  /-- `claim_batch` with that batch size returns the rows. -/
  claim : σ → Nat → List JobId → σ → Prop
  /-- `mark_completed` or `mark_failed`. -/
  verdict : σ → JobId → σ → Prop
  /-- What anybody else does, sweeps among it. -/
  other : σ → σ → Prop
  claim_inv : ∀ {s n rows s'}, inv s → claim s n rows s' → inv s'
  verdict_inv : ∀ {s id s'}, inv s → verdict s id s' → inv s'
  other_inv : ∀ {s s'}, inv s → other s s' → inv s'
  claim_rows : ∀ {s n rows s'}, inv s → claim s n rows s' → rows.length ≤ n ∧ rows.Nodup

/-- Where `fetch_loop` is. `full` remembers that the batch was full. -/
inductive Fetch
  /-- At the top, waiting for an idle worker. -/
  | top
  /-- With the permit of the idle worker, to be dropped. -/
  | holding
  /-- Without it, before `available_permits`. -/
  | reading
  /-- `claim_batch` is under way. -/
  | claiming (n : Nat)
  /-- At the head of the loop over the rows. -/
  | looping (full : Bool) (rows : List JobId)
  /-- With the permit of a row, to be forgotten. -/
  | taking (full : Bool) (id : JobId) (rows : List JobId)
  /-- The permit is forgotten; the row is not yet in `in_flight`. -/
  | forgot (full : Bool) (id : JobId) (rows : List JobId)
  /-- The row is in `in_flight` and is being sent. -/
  | sending (full : Bool) (id : JobId) (rows : List JobId)
  | resting
  /-- `expect("claimed no more jobs than idle workers")`. -/
  | panicked
  | stopped
  deriving DecidableEq

/-- Where `worker_loop` is. -/
inductive Work
  | waiting
  /-- With a job and the guard of its permit. -/
  | received (id : JobId)
  | handling (id : JobId)
  /-- The handler has ended, or there is none for the kind. -/
  | returned (id : JobId)
  /-- Out of `in_flight`, with the verdict under way. -/
  | reporting (id : JobId)
  /-- At the end of the iteration, where the guard is dropped. -/
  | leaving
  | stopped
  deriving DecidableEq

/-- The state of the loops and their backend. -/
structure Loops (σ : Type) where
  store : σ
  idle : Nat
  fetch : Fetch := .top
  channel : List JobId := []
  workers : List Work
  inFlight : List JobId := []
  cancelled : Bool := false
  aborted : Bool := false

/-- `runtime::start`. -/
def Loops.start {σ : Type} (cfg : Config) (s : σ) : Loops σ where
  store := s
  idle := cfg.concurrency
  workers := List.replicate cfg.concurrency .waiting

/-- The receiver is dropped with the last worker. -/
def Loops.closed {σ : Type} (p : Loops σ) : Bool := p.workers.all (· = .stopped)

/-- The ids that a worker has in hand until it takes them out of `in_flight`. -/
def Work.inHand : Work → Option JobId
  | .received id | .handling id | .returned id => some id
  | _ => none

/-- The job whose handler has not ended. -/
def Work.executing : Work → Option JobId
  | .received id | .handling id => some id
  | _ => none

/-- The rows the fetcher has not sent. -/
def Fetch.rows : Fetch → List JobId
  | .looping _ rows => rows
  | .taking _ id rows | .forgot _ id rows | .sending _ id rows => id :: rows
  | _ => []

/-- The `await` points, where an aborted task can be dropped. -/
def Fetch.awaits : Fetch → Bool
  | .top | .claiming _ | .sending .. | .resting => true
  | _ => false

def Work.awaits : Work → Bool
  | .waiting | .handling _ | .reporting _ => true
  | _ => false

def Loops.inHand {σ : Type} (p : Loops σ) : List JobId := p.workers.filterMap Work.inHand

def Loops.executing {σ : Type} (p : Loops σ) : List JobId := p.workers.filterMap Work.executing

section Turn

variable {σ : Type} (S : Service σ) (cfg : Config) (careful : Prop)

/-- One instruction of a loop. The guard named `ok` is asked of careful runs only. -/
inductive Turn : Loops σ → Loops σ → Prop
  /-- `idle.acquire()`. -/
  | acquire {p : Loops σ} (pc : p.fetch = .top) (permit : 0 < p.idle) :
      Turn p { p with fetch := .holding, idle := p.idle - 1 }
  /-- `drop(permit)`. -/
  | release {p : Loops σ} (pc : p.fetch = .holding) : Turn p { p with fetch := .reading, idle := p.idle + 1 }
  /-- `available_permits()`, and the call of `claim_batch`. -/
  | read {p : Loops σ} (pc : p.fetch = .reading) : Turn p { p with fetch := .claiming (min cfg.batchSize p.idle) }
  /-- The claim returns its rows. -/
  | claimed {p : Loops σ} {n : Nat} {rows : List JobId} {s : σ} (pc : p.fetch = .claiming n)
      (done : S.claim p.store n rows s) (ok : careful → ∀ id ∈ rows, id ∉ p.channel ++ p.inHand) :
      Turn p { p with store := s, fetch := .looping (rows.length = n && 0 < rows.length) rows }
  /-- The claim returns an error, whether it has committed or not. -/
  | failed {p : Loops σ} {n : Nat} {s : σ} (pc : p.fetch = .claiming n)
      (done : s = p.store ∨ ∃ rows, S.claim p.store n rows s) : Turn p { p with store := s, fetch := .resting }
  /-- `try_acquire()`. -/
  | tryAcquire {p : Loops σ} {full : Bool} {id : JobId} {rows : List JobId} (pc : p.fetch = .looping full (id :: rows))
      (permit : 0 < p.idle) : Turn p { p with fetch := .taking full id rows, idle := p.idle - 1 }
  | panic {p : Loops σ} {full : Bool} {id : JobId} {rows : List JobId} (pc : p.fetch = .looping full (id :: rows))
      (spent : p.idle = 0) : Turn p { p with fetch := .panicked }
  | forget {p : Loops σ} {full : Bool} {id : JobId} {rows : List JobId} (pc : p.fetch = .taking full id rows) :
      Turn p { p with fetch := .forgot full id rows }
  | enter {p : Loops σ} {full : Bool} {id : JobId} {rows : List JobId} (pc : p.fetch = .forgot full id rows) :
      Turn p { p with fetch := .sending full id rows, inFlight := p.inFlight.insert id }
  | send {p : Loops σ} {full : Bool} {id : JobId} {rows : List JobId} (pc : p.fetch = .sending full id rows)
      (isOpen : p.closed = false) (room : p.channel.length < cfg.capacity) :
      Turn p { p with fetch := .looping full rows, channel := p.channel ++ [id] }
  /-- `worker channel closed, fetcher exiting`. -/
  | sendFails {p : Loops σ} {full : Bool} {id : JobId} {rows : List JobId} (pc : p.fetch = .sending full id rows)
      (gone : p.closed = true) : Turn p { p with fetch := .stopped }
  /-- No row is left: fetch again at once after a full batch, else sleep. -/
  | rest {p : Loops σ} {full : Bool} (pc : p.fetch = .looping full []) :
      Turn p { p with fetch := if full then .top else .resting }
  | wake {p : Loops σ} (pc : p.fetch = .resting) : Turn p { p with fetch := .top }
  | stopFetch {p : Loops σ} (pc : p.fetch = .top ∨ p.fetch = .resting) (off : p.cancelled = true) :
      Turn p { p with fetch := .stopped }
  /-- `recv()`. -/
  | receive {p : Loops σ} {ws ws' : List Work} {id : JobId} {rest : List JobId} (at' : p.workers = ws ++ .waiting :: ws')
      (head : p.channel = id :: rest) : Turn p { p with workers := ws ++ .received id :: ws', channel := rest }
  | call {p : Loops σ} {ws ws' : List Work} {id : JobId} (at' : p.workers = ws ++ .received id :: ws') :
      Turn p { p with workers := ws ++ .handling id :: ws' }
  /-- There is no handler for the kind. -/
  | unknown {p : Loops σ} {ws ws' : List Work} {id : JobId} (at' : p.workers = ws ++ .received id :: ws') :
      Turn p { p with workers := ws ++ .returned id :: ws' }
  /-- The handler returns, fails, panics or is timed out. -/
  | ended {p : Loops σ} {ws ws' : List Work} {id : JobId} (at' : p.workers = ws ++ .handling id :: ws') :
      Turn p { p with workers := ws ++ .returned id :: ws' }
  | remove {p : Loops σ} {ws ws' : List Work} {id : JobId} (at' : p.workers = ws ++ .returned id :: ws') :
      Turn p { p with workers := ws ++ .reporting id :: ws', inFlight := p.inFlight.filter (· ≠ id) }
  /-- The verdict is answered, be it by an error. -/
  | report {p : Loops σ} {ws ws' : List Work} {id : JobId} {s : σ} (at' : p.workers = ws ++ .reporting id :: ws')
      (done : s = p.store ∨ S.verdict p.store id s) : Turn p { p with store := s, workers := ws ++ .leaving :: ws' }
  /-- The guard is dropped, and the next iteration begins. -/
  | again {p : Loops σ} {ws ws' : List Work} (at' : p.workers = ws ++ .leaving :: ws') :
      Turn p { p with workers := ws ++ .waiting :: ws', idle := p.idle + 1 }
  | stopWork {p : Loops σ} {ws ws' : List Work} (at' : p.workers = ws ++ .waiting :: ws') (off : p.cancelled = true) :
      Turn p { p with workers := ws ++ .stopped :: ws' }
  | cancel {p : Loops σ} : Turn p { p with cancelled := true }
  /-- A shutdown that does not wait aborts the tasks. -/
  | abort {p : Loops σ} (off : p.cancelled = true) : Turn p { p with aborted := true }
  | dropFetch {p : Loops σ} (off : p.aborted = true) (waits : p.fetch.awaits = true) :
      Turn p { p with fetch := .stopped }
  /-- With an aborted worker its guard is dropped. -/
  | dropWork {p : Loops σ} {ws ws' : List Work} {w : Work} (off : p.aborted = true) (at' : p.workers = ws ++ w :: ws')
      (waits : w.awaits = true) :
      Turn p { p with workers := ws ++ .stopped :: ws', idle := if w = .waiting then p.idle else p.idle + 1 }
  | other {p : Loops σ} {s : σ} (done : S.other p.store s) : Turn p { p with store := s }

/-- The states that the loops reach from their start. -/
def Loops.Reached (p : Loops σ) : Prop :=
  ∃ s, S.inv s ∧ Lib.Reach (fun p (_ : Unit) p' => Turn S cfg careful p p') (Loops.start cfg s) p

variable {S cfg careful} {p p' : Loops σ}

theorem Loops.Reached.turn (h : p.Reached S cfg careful) (ht : Turn S cfg careful p p') : p'.Reached S cfg careful := by
  obtain ⟨s, hs, hr⟩ := h
  exact ⟨s, hs, hr.step (a := ()) ht⟩

theorem Turn.store (ht : Turn S cfg careful p p') (hs : S.inv p.store) : S.inv p'.store := by
  cases ht with
  | claimed _ done _ => exact S.claim_inv hs done
  | failed _ done =>
    rcases done with rfl | ⟨rows, done⟩
    · exact hs
    · exact S.claim_inv hs done
  | report _ done =>
    rcases done with rfl | done
    · exact hs
    · exact S.verdict_inv hs done
  | other done => exact S.other_inv hs done
  | _ => exact hs

/-- What the loops keep, given what the backend keeps, holds in all states they reach. -/
theorem Loops.Reached.rule {P : Loops σ → Prop} (h : p.Reached S cfg careful) (start : ∀ s, P (Loops.start cfg s))
    (turn : ∀ p p', S.inv p.store → P p → Turn S cfg careful p p' → P p') : P p := by
  obtain ⟨s, hs, hr⟩ := h
  have hi : S.inv p.store ∧ P p := Lib.Reach.inv (P := fun p => S.inv p.store ∧ P p) hr ⟨hs, start s⟩
    (fun p _ p' hp ht => ⟨ht.store hp.1, turn p p' hp.1 hp.2 ht⟩)
  exact hi.2

end Turn

/-! ## Permits -/

/-- The permit in the fetcher's hand. -/
def Fetch.held : Fetch → Nat
  | .holding | .taking .. => 1
  | _ => 0

/-- The job that has lost its permit and is not in the channel. -/
def Fetch.forgotten : Fetch → Nat
  | .forgot .. | .sending .. => 1
  | _ => 0

/-- How many permits the fetcher may still take. -/
def Fetch.need : Fetch → Nat
  | .claiming n => n
  | .looping _ rows | .taking _ _ rows | .forgot _ _ rows | .sending _ _ rows => rows.length
  | _ => 0

/-- The worker's iteration has not ended. -/
def Work.busy : Work → Bool
  | .waiting | .stopped => false
  | _ => true

section Permits

variable {σ : Type}

/-- The jobs whose permit was forgotten and whose iteration has not ended. -/
def Loops.outstanding (p : Loops σ) : Nat := p.fetch.forgotten + p.channel.length + p.workers.countP Work.busy

/-- What the permits are for. -/
structure Loops.Balanced (cfg : Config) (p : Loops σ) : Prop where
  permits : p.idle + p.fetch.held + p.outstanding = cfg.concurrency
  calm : p.fetch ≠ .panicked
  room : ∀ full id rows, p.fetch = .sending full id rows → p.closed = false ∧ p.channel.length < cfg.capacity
  fits : p.workers.length = cfg.concurrency ∧ p.channel.length + p.executing.length ≤ p.workers.length
  /-- Every job in the channel has a worker that waits for it. -/
  served : p.channel.length ≤ p.workers.count .waiting

/-- The invariant. -/
structure Loops.Balance (cfg : Config) (p : Loops σ) : Prop where
  permits : p.idle + p.fetch.held + p.outstanding = cfg.concurrency
  need : p.fetch.need ≤ p.idle
  calm : p.fetch ≠ .panicked
  alive : .stopped ∉ p.workers
  count : p.workers.length = cfg.concurrency

variable {S : Service σ} {cfg : Config} {careful : Prop} {p p' : Loops σ}

theorem Loops.Balance.start (cfg : Config) (s : σ) : (Loops.start cfg s).Balance cfg where
  permits := by simp [Loops.start, Loops.outstanding, Fetch.held, Fetch.forgotten, List.countP_replicate, Work.busy]
  need := Nat.zero_le _
  calm := nofun
  alive := by simp [Loops.start]
  count := by simp [Loops.start]

/-- The workers that are left when the waiting ones are taken away are busy. -/
theorem count_waiting : ∀ {ws : List Work}, .stopped ∉ ws → ws.count .waiting + ws.countP Work.busy = ws.length
  | [], _ => rfl
  | w :: ws, h => by
    have hne : w ≠ .stopped := fun e => h (e ▸ List.mem_cons_self)
    have ih := @count_waiting ws (fun hm => h (List.mem_cons_of_mem _ hm))
    rw [List.count_cons, List.countP_cons, List.length_cons]
    cases w <;> simp [Work.busy] at hne ⊢ <;> omega

theorem executing_le_busy : ∀ ws : List Work, (ws.filterMap Work.executing).length ≤ ws.countP Work.busy
  | [] => Nat.le_refl _
  | w :: ws => by
    have ih := executing_le_busy ws
    rw [List.countP_cons, List.filterMap_cons]
    cases w <;> simp [Work.executing, Work.busy] <;> omega

/-- What the invariant says about the jobs. -/
theorem Loops.Balance.balanced (h : p.Balance cfg) : p.Balanced cfg := by
  have hsum := h.permits
  have hcount := h.count
  have hwait := count_waiting h.alive
  have hexec := executing_le_busy p.workers
  unfold Loops.outstanding at hsum
  refine ⟨h.permits, h.calm, fun full id rows pc => ⟨?_, ?_⟩, ⟨h.count, ?_⟩, ?_⟩
  · rw [pc] at hsum
    simp only [Fetch.forgotten] at hsum
    -- a job is on its way, so there is a worker, and none has stopped
    cases hw : p.workers with
    | nil =>
      rw [hw] at hcount
      simp only [List.length_nil] at hcount
      omega
    | cons w ws =>
      have hne : w ≠ .stopped := fun e => h.alive (by rw [hw, e]; exact List.mem_cons_self)
      simp [Loops.closed, hw, hne]
  · rw [pc] at hsum
    simp only [Fetch.forgotten] at hsum
    unfold Config.capacity
    omega
  · unfold Loops.executing
    omega
  · omega

/-- The fetcher moves, and with it permits and jobs. -/
theorem Loops.Balance.fetcher (h : p.Balance cfg) {s : σ} {f : Fetch} {i : Nat} {c fl : List JobId}
    (sum : i + f.held + f.forgotten + c.length = p.idle + p.fetch.held + p.fetch.forgotten + p.channel.length)
    (need : f.need ≤ i) (calm : f ≠ .panicked) :
    Loops.Balance cfg { p with store := s, fetch := f, idle := i, channel := c, inFlight := fl } := by
  refine ⟨?_, need, calm, h.alive, h.count⟩
  have hsum := h.permits
  simp only [Loops.outstanding] at hsum ⊢
  omega

theorem countP_at (f : Work → Bool) (ws ws' : List Work) (w : Work) :
    (ws ++ w :: ws').countP f = ws.countP f + ws'.countP f + (f w).toNat := by
  rw [List.countP_append, List.countP_cons]
  cases f w
  · simp
  · simp
    omega

/-- A worker moves. It takes a job out of the channel, or gives a permit back. -/
theorem Loops.Balance.worker (h : p.Balance cfg) {s : σ} {ws ws' : List Work} {w w' : Work} {i : Nat} {c fl : List JobId}
    (at' : p.workers = ws ++ w :: ws') (alive : w' ≠ .stopped)
    (sum : i + c.length + w'.busy.toNat = p.idle + p.channel.length + w.busy.toNat) (more : p.idle ≤ i) :
    Loops.Balance cfg { p with
      store := s, idle := i, channel := c, workers := ws ++ w' :: ws', inFlight := fl } := by
  have halive := h.alive
  have hcount := h.count
  rw [at'] at halive hcount
  refine ⟨?_, h.need.trans more, h.calm, fun hm => ?_, by simpa using hcount⟩
  · have hsum := h.permits
    simp only [Loops.outstanding, at', countP_at] at hsum ⊢
    omega
  · rcases List.mem_append.mp hm with hm | hm
    · exact halive (List.mem_append_left _ hm)
    · rcases List.mem_cons.mp hm with hm | hm
      · exact alive hm.symm
      · exact halive (List.mem_append_right _ (List.mem_cons_of_mem _ hm))

/-- The invariant of runs: until the token is cancelled the permits balance. -/
structure Loops.Inv (cfg : Config) (p : Loops σ) : Prop where
  off : p.aborted = true → p.cancelled = true
  balance : p.cancelled = false → p.Balance cfg

/-- A step that leaves the token alone. -/
theorem Loops.Inv.keep (h : p.Inv cfg) (hc : p'.cancelled = p.cancelled) (ha : p'.aborted = p.aborted)
    (hb : p.Balance cfg → p'.Balance cfg) : p'.Inv cfg := by
  refine ⟨fun ho => ?_, fun hn => hb (h.balance (hc ▸ hn))⟩
  rw [ha] at ho
  rw [hc]
  exact h.off ho

/-- A step that is taken after the cancellation only. -/
theorem Loops.Inv.late (hc : p'.cancelled = p.cancelled) (off : p.cancelled = true) : p'.Inv cfg := by
  refine ⟨fun _ => hc.trans off, fun hn => ?_⟩
  rw [hc, off] at hn
  cases hn

/-- **One instruction.** -/
theorem Loops.Inv.turn (hs : S.inv p.store) (h : p.Inv cfg) (ht : Turn S cfg careful p p') : p'.Inv cfg := by
  cases ht with
  | acquire pc permit =>
    refine h.keep rfl rfl (fun hb => hb.fetcher ?_ (Nat.zero_le _) nofun)
    simp only [pc, Fetch.held, Fetch.forgotten]
    omega
  | release pc =>
    refine h.keep rfl rfl (fun hb => hb.fetcher ?_ (Nat.zero_le _) nofun)
    simp only [pc, Fetch.held, Fetch.forgotten]
  | read pc =>
    refine h.keep rfl rfl (fun hb => hb.fetcher ?_ (Nat.min_le_right _ _) nofun)
    simp only [pc, Fetch.held, Fetch.forgotten]
  | @claimed n rows s pc done ok =>
    refine h.keep rfl rfl (fun hb => hb.fetcher ?_ ?_ nofun)
    · simp only [pc, Fetch.held, Fetch.forgotten]
    · -- the permits that were read are still there: only the fetcher takes any
      have hneed := hb.need
      rw [pc] at hneed
      exact (S.claim_rows hs done).1.trans hneed
  | failed pc done =>
    refine h.keep rfl rfl (fun hb => hb.fetcher ?_ (Nat.zero_le _) nofun)
    simp only [pc, Fetch.held, Fetch.forgotten]
  | tryAcquire pc permit =>
    refine h.keep rfl rfl (fun hb => hb.fetcher ?_ ?_ nofun)
    · simp only [pc, Fetch.held, Fetch.forgotten]
      omega
    · have hneed := hb.need
      simp only [pc, Fetch.need, List.length_cons] at hneed ⊢
      omega
  | panic pc spent =>
    refine h.keep rfl rfl (fun hb => ?_)
    have hneed := hb.need
    simp only [pc, Fetch.need, List.length_cons] at hneed
    omega
  | forget pc =>
    refine h.keep rfl rfl (fun hb => hb.fetcher ?_ ?_ nofun)
    · simp only [pc, Fetch.held, Fetch.forgotten]
    · simpa [pc, Fetch.need] using hb.need
  | enter pc =>
    refine h.keep rfl rfl (fun hb => hb.fetcher ?_ ?_ nofun)
    · simp only [pc, Fetch.held, Fetch.forgotten]
    · simpa [pc, Fetch.need] using hb.need
  | send pc isOpen room =>
    refine h.keep rfl rfl (fun hb => hb.fetcher ?_ ?_ nofun)
    · simp only [pc, Fetch.held, Fetch.forgotten, List.length_append, List.length_singleton]
      omega
    · simpa [pc, Fetch.need] using hb.need
  | sendFails pc gone =>
    refine h.keep rfl rfl (fun hb => ?_)
    rw [(hb.balanced.room _ _ _ pc).1] at gone
    cases gone
  | @rest full pc =>
    refine h.keep rfl rfl (fun hb => hb.fetcher ?_ ?_ ?_)
    · cases full <;> simp [pc, Fetch.held, Fetch.forgotten]
    · cases full <;> exact Nat.zero_le _
    · cases full <;> nofun
  | wake pc =>
    refine h.keep rfl rfl (fun hb => hb.fetcher ?_ (Nat.zero_le _) nofun)
    simp only [pc, Fetch.held, Fetch.forgotten]
  | stopFetch pc off => exact Loops.Inv.late rfl off
  | receive at' head =>
    refine h.keep rfl rfl (fun hb => hb.worker at' nofun ?_ (Nat.le_refl _))
    simp only [head, Work.busy, List.length_cons, Bool.toNat_true, Bool.toNat_false]
    omega
  | call at' => exact h.keep rfl rfl (fun hb => hb.worker at' nofun rfl (Nat.le_refl _))
  | unknown at' => exact h.keep rfl rfl (fun hb => hb.worker at' nofun rfl (Nat.le_refl _))
  | ended at' => exact h.keep rfl rfl (fun hb => hb.worker at' nofun rfl (Nat.le_refl _))
  | remove at' => exact h.keep rfl rfl (fun hb => hb.worker at' nofun rfl (Nat.le_refl _))
  | report at' done => exact h.keep rfl rfl (fun hb => hb.worker at' nofun rfl (Nat.le_refl _))
  | again at' =>
    refine h.keep rfl rfl (fun hb => hb.worker at' nofun ?_ (Nat.le_succ _))
    simp only [Work.busy, Bool.toNat_true, Bool.toNat_false]
    omega
  | stopWork at' off => exact Loops.Inv.late rfl off
  | cancel => exact ⟨fun _ => rfl, nofun⟩
  | abort off => exact ⟨fun _ => off, fun hn => absurd (hn.symm.trans off) nofun⟩
  | dropFetch off waits => exact Loops.Inv.late rfl (h.off off)
  | dropWork off at' waits => exact Loops.Inv.late rfl (h.off off)
  | other done => exact h.keep rfl rfl (fun hb => ⟨hb.permits, hb.need, hb.calm, hb.alive, hb.count⟩)

theorem Loops.Reached.inv (h : p.Reached S cfg careful) : p.Inv cfg :=
  h.rule (fun s => ⟨nofun, fun _ => .start cfg s⟩) (fun _ _ hs hi ht => hi.turn hs ht)

end Permits

end Eddyq.Runtime
