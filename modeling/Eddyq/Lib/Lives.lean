import Eddyq.Lib.Rows
import Eddyq.Lib.Runs
import Mathlib.Order.Lattice
import Mathlib.Algebra.Order.Ring.Int

/-!
# Lives of jobs with two budgets

A job waits, runs under a worker, and ends. A claim takes one attempt; a recovery takes one stall and gives the attempt
back, or fails the job when its stalls are used up (`Life.next`). `Life.Tallied` states how a life and the number of its
claims belong together, and `Life.Tallied.next` that every event keeps this, provided a job is retried only while it has
attempts left.

A desk hands out jobs and takes verdicts on them; the books are its store with the claims of every job, the lease of the
last one, and the last that was known of its life. `Desk.Lawful` collects what the calls may do to lives, and
`Desk.Lawful.bounded` concludes for every run in which verdicts come under the current lease.
-/

namespace Eddyq.Lib

/-! ## One life -/

/-- Where a job stands. A running job has the worker on record, if any. -/
inductive Phase (W : Type)
  | waiting
  | running (w : Option W)
  | completed
  | failed
  | cancelled
  deriving DecidableEq

/-- The job will not run again. -/
def Phase.final {W : Type} : Phase W → Prop
  | .waiting | .running _ => False
  | .completed | .failed | .cancelled => True

/-- A job as its counters see it. -/
structure Life (W : Type) where
  phase : Phase W
  attempt : ℤ
  stalled : ℤ
  maxAttempts : ℤ
  maxStalled : ℤ
  deriving DecidableEq

/-- What can happen to a job. -/
inductive Event (W : Type)
  | claim (w : W)
  | complete
  | fail
  | retry
  | recover
  | cancel

namespace Life

variable {W : Type}

/-- A new job. -/
def born (maxAttempts maxStalled : ℤ) : Life W := ⟨.waiting, 0, 0, maxAttempts, maxStalled⟩

/-- One more stall is too many. -/
def stalledOut (l : Life W) : Prop := l.stalled + 1 > l.maxStalled

instance (l : Life W) : Decidable l.stalledOut := inferInstanceAs (Decidable (_ > _))

/-- The life after an event. -/
def next (l : Life W) : Event W → Life W
  | .claim w => { l with phase := .running (some w), attempt := l.attempt + 1 }
  | .complete => { l with phase := .completed }
  | .fail => { l with phase := .failed }
  | .retry => { l with phase := .waiting }
  | .recover => { l with
      stalled := l.stalled + 1
      phase := if l.stalledOut then .failed else .waiting
      attempt := if l.stalledOut then l.attempt else max (l.attempt - 1) 0 }
  | .cancel => { l with phase := .cancelled }

/-- How often a job with these budgets can be claimed. -/
def limit (l : Life W) : ℤ := max l.maxAttempts 1 + max l.maxStalled 0

/-- A life and the number of its claims. -/
structure Tallied (l : Life W) (n : Nat) : Prop where
  count : ¬ l.phase.final → (n : ℤ) = l.attempt + l.stalled
  waiting : l.phase = .waiting → 0 ≤ l.attempt ∧ l.attempt < max l.maxAttempts 1
  running : ∀ w, l.phase = .running w → 1 ≤ l.attempt ∧ l.attempt ≤ max l.maxAttempts 1
  stalled : ¬ l.phase.final → 0 ≤ l.stalled ∧ l.stalled ≤ max l.maxStalled 0
  bound : (n : ℤ) ≤ l.limit

theorem Tallied.born (ma ms : ℤ) : (born ma ms : Life W).Tallied 0 where
  count _ := rfl
  waiting _ := ⟨le_refl _, lt_of_lt_of_le Int.zero_lt_one (le_max_right _ _)⟩
  running _ h := by cases h
  stalled _ := ⟨le_refl _, le_max_right _ _⟩
  bound := by
    have h1 : (1 : ℤ) ≤ max ma 1 := le_max_right _ _
    have h2 : (0 : ℤ) ≤ max ms 0 := le_max_right _ _
    show ((0 : Nat) : ℤ) ≤ max ma 1 + max ms 0
    omega

variable {l : Life W} {n : Nat}

/-- Ending a life leaves its counters alone. -/
theorem Tallied.final (h : l.Tallied n) {p : Phase W} (hp : p.final) : ({ l with phase := p } : Life W).Tallied n where
  count hn := absurd hp hn
  waiting hw := by
    have hw : p = .waiting := hw
    rw [hw] at hp
    exact hp.elim
  running w hw := by
    have hw : p = .running w := hw
    rw [hw] at hp
    exact hp.elim
  stalled hn := absurd hp hn
  bound := h.bound

theorem Tallied.claim (h : l.Tallied n) (hl : l.phase = .waiting) (w : W) : (l.next (.claim w)).Tallied (n + 1) := by
  have hlive : ¬ l.phase.final := by rw [hl]; exact fun hf => hf
  have hcount := h.count hlive
  obtain ⟨ha, ha'⟩ := h.waiting hl
  obtain ⟨hs, hs'⟩ := h.stalled hlive
  refine ⟨fun _ => ?_, nofun, fun _ _ => ?_, fun _ => ⟨hs, hs'⟩, ?_⟩
  · show ((n + 1 : Nat) : ℤ) = l.attempt + 1 + l.stalled
    omega
  · show 1 ≤ l.attempt + 1 ∧ l.attempt + 1 ≤ max l.maxAttempts 1
    omega
  · show ((n + 1 : Nat) : ℤ) ≤ max l.maxAttempts 1 + max l.maxStalled 0
    omega

/-- A retry needs an attempt that is left. -/
theorem Tallied.retry (h : l.Tallied n) {w : Option W} (hl : l.phase = .running w) (ha : l.attempt < l.maxAttempts) :
    (l.next .retry).Tallied n := by
  have hlive : ¬ l.phase.final := by rw [hl]; exact fun hf => hf
  refine ⟨fun _ => h.count hlive, fun _ => ⟨?_, lt_of_lt_of_le ha (le_max_left _ _)⟩, fun _ => nofun,
    fun _ => h.stalled hlive, h.bound⟩
  have hpos : 1 ≤ l.attempt := (h.running w hl).1
  show 0 ≤ l.attempt
  omega

/-- A recovery trades an attempt for a stall; a running job has an attempt to give. -/
theorem Tallied.recover (h : l.Tallied n) {w : Option W} (hl : l.phase = .running w) : (l.next .recover).Tallied n := by
  have hlive : ¬ l.phase.final := by rw [hl]; exact fun hf => hf
  have hcount := h.count hlive
  obtain ⟨ha, ha'⟩ := h.running w hl
  obtain ⟨hs, hs'⟩ := h.stalled hlive
  by_cases hout : l.stalledOut
  · have hnext : l.next .recover = { l with stalled := l.stalled + 1, phase := .failed } := by simp [next, hout]
    rw [hnext]
    exact ⟨fun hn => absurd trivial hn, nofun, fun _ => nofun, fun hn => absurd trivial hn, h.bound⟩
  · have hnext : l.next .recover =
        { l with stalled := l.stalled + 1, phase := .waiting, attempt := max (l.attempt - 1) 0 } := by simp [next, hout]
    have hroom : l.stalled + 1 ≤ l.maxStalled := not_lt.mp hout
    rw [hnext]
    refine ⟨fun _ => ?_, fun _ => ?_, fun _ => nofun, fun _ => ?_, h.bound⟩
    · show (n : ℤ) = max (l.attempt - 1) 0 + (l.stalled + 1)
      omega
    · show 0 ≤ max (l.attempt - 1) 0 ∧ max (l.attempt - 1) 0 < max l.maxAttempts 1
      omega
    · show 0 ≤ l.stalled + 1 ∧ l.stalled + 1 ≤ max l.maxStalled 0
      omega

end Life

/-! ## Desks -/

/-- What a claim tells its worker. -/
structure Lease (J W : Type) where
  job : J
  worker : W
  attempt : ℤ
  maxAttempts : ℤ
  deriving DecidableEq

/-- What a call may do to a job that it does not hand out. Only an id that was never used is given to a new job. -/
inductive Life.Moved {W : Type} (used : Prop) : Option (Life W) → Option (Life W) → Prop
  | stay (o : Option (Life W)) : Life.Moved used o o
  | gone (o : Option (Life W)) : Life.Moved used o none
  | born (ma ms : ℤ) (new : ¬ used) : Life.Moved used none (some (.born ma ms))
  | recover {l : Life W} {w : Option W} (runs : l.phase = .running w) : Life.Moved used (some l) (some (l.next .recover))
  | cancel {l : Life W} (waits : l.phase = .waiting) : Life.Moved used (some l) (some (l.next .cancel))

/-- What a claim does to the job of a lease. -/
inductive Life.Handed {J W : Type} (x : Lease J W) : Option (Life W) → Option (Life W) → Prop
  | claim {l : Life W} (waits : l.phase = .waiting) (attempt : x.attempt = l.attempt + 1)
      (maxAttempts : x.maxAttempts = l.maxAttempts) : Life.Handed x (some l) (some (l.next (.claim x.worker)))

/-- What a verdict may do to the job of its lease. It is retried only if the lease has attempts left. -/
inductive Life.Ruled {J W : Type} (x : Lease J W) : Option (Life W) → Option (Life W) → Prop
  | stay (o : Option (Life W)) : Life.Ruled x o o
  | gone (o : Option (Life W)) : Life.Ruled x o none
  | complete (l : Life W) : Life.Ruled x (some l) (some (l.next .complete))
  | fail (l : Life W) : Life.Ruled x (some l) (some (l.next .fail))
  | retry (l : Life W) (left : x.attempt < x.maxAttempts) : Life.Ruled x (some l) (some (l.next .retry))

/-- A store that hands out jobs and takes verdicts on them. -/
structure Desk (σ α ν J W : Type) where
  call : σ → α → σ
  leases : σ → α → List (Lease J W)
  judge : σ → J → W → ν → σ
  life : σ → J → Option (Life W)

/-- A store with its books. -/
structure Books (σ J W : Type) where
  store : σ
  claims : J → Nat := fun _ => 0
  lease : J → Option (Lease J W) := fun _ => none
  /-- The last that was known of the job; it stays when the job is deleted. -/
  last : J → Option (Life W) := fun _ => none

section Desk

variable {σ α ν J W : Type} [DecidableEq J] (D : Desk σ α ν J W)

/-- After a call. -/
def Desk.called (z : Books σ J W) (a : α) : Books σ J W where
  store := D.call z.store a
  claims j := z.claims j + (D.leases z.store a).countP (·.job = j)
  lease j := ((D.leases z.store a).find? (·.job = j)).or (z.lease j)
  last j := (D.life (D.call z.store a) j).or (z.last j)

omit [DecidableEq J] in
/-- After a verdict. -/
def Desk.judged (z : Books σ J W) (x : Lease J W) (v : ν) : Books σ J W where
  store := D.judge z.store x.job x.worker v
  claims := z.claims
  lease := z.lease
  last j := (D.life (D.judge z.store x.job x.worker v) j).or (z.last j)

/-- The job runs under its worker. -/
def Desk.Runs (s : σ) (x : Lease J W) : Prop := ∃ l, D.life s x.job = some l ∧ l.phase = .running (some x.worker)

/-- A call, or a verdict under the current lease. -/
inductive Desk.Step (may : α → Prop) (allows : Lease J W → ν → Prop) : Books σ J W → α ⊕ J × ν → Books σ J W → Prop
  | call {z : Books σ J W} (a : α) (hmay : may a) : Desk.Step may allows z (.inl a) (D.called z a)
  | verdict {z : Books σ J W} (x : Lease J W) (v : ν) (current : z.lease x.job = some x) (runs : D.Runs z.store x)
      (hallows : allows x v) : Desk.Step may allows z (.inr (x.job, v)) (D.judged z x v)

/-- **The bound.** A job that has not ended was claimed as often as its counters say, and has an attempt while it runs;
no job is ever claimed more often than its budgets allow. -/
structure Desk.Bounded (z : Books σ J W) : Prop where
  count : ∀ j l, D.life z.store j = some l → ¬ l.phase.final → (z.claims j : ℤ) = l.attempt + l.stalled
  running : ∀ j l w, D.life z.store j = some l → l.phase = .running w → 1 ≤ l.attempt
  known : ∀ j l, D.life z.store j = some l → z.last j = some l
  bound : ∀ j l, z.last j = some l → (z.claims j : ℤ) ≤ l.limit
  blank : ∀ j, z.last j = none → z.claims j = 0

/-- What the calls of a desk may do, on stores that meet `P`. -/
structure Desk.Lawful (P : σ → Prop) (used : σ → J → Prop) (may : α → Prop) (allows : Lease J W → ν → Prop) : Prop where
  call_inv : ∀ {s a}, P s → may a → P (D.call s a)
  judge_inv : ∀ {s x v}, P s → D.Runs s x → P (D.judge s x.job x.worker v)
  life_used : ∀ {s j l}, P s → D.life s j = some l → used s j
  call_used : ∀ {s a j}, P s → may a → used s j → used (D.call s a) j
  judge_used : ∀ {s v j} (x : Lease J W), P s → D.Runs s x → used s j → used (D.judge s x.job x.worker v) j
  distinct : ∀ {s} a, P s → ((D.leases s a).map (·.job)).Nodup
  handed : ∀ {s a x}, P s → x ∈ D.leases s a → Life.Handed x (D.life s x.job) (D.life (D.call s a) x.job)
  moved : ∀ {s a j}, P s → may a → (∀ x ∈ D.leases s a, x.job ≠ j) →
    Life.Moved (used s j) (D.life s j) (D.life (D.call s a) j)
  ruled : ∀ {s x v}, P s → D.Runs s x → allows x v →
    Life.Ruled x (D.life s x.job) (D.life (D.judge s x.job x.worker v) x.job)
  spared : ∀ {s x v j}, P s → D.Runs s x → j ≠ x.job →
    Life.Moved (used s j) (D.life s j) (D.life (D.judge s x.job x.worker v) j)

/-- The invariant: every life is tallied, and the lease of a running job has the job's numbers. -/
structure Desk.Kept (P : σ → Prop) (used : σ → J → Prop) (z : Books σ J W) : Prop where
  store : P z.store
  tallied : ∀ j l, z.last j = some l → l.Tallied (z.claims j)
  blank : ∀ j, z.last j = none → z.claims j = 0
  known : ∀ j l, D.life z.store j = some l → z.last j = some l
  used : ∀ j l, z.last j = some l → used z.store j
  lease : ∀ j l w x, D.life z.store j = some l → l.phase = .running w → z.lease j = some x →
    x.attempt = l.attempt ∧ x.maxAttempts = l.maxAttempts

end Desk

/-! ## The rule -/

section Moved

variable {W : Type} {used : Prop} {o o' : Option (Life W)}

/-- A job that runs after a call that did not hand it out ran before it. -/
theorem Life.Moved.runs (h : Life.Moved used o o') {l : Life W} {w : Option W} (hl : o' = some l)
    (hr : l.phase = .running w) : o = some l := by
  cases h with
  | stay => exact hl
  | gone => cases hl
  | born => cases hl; cases hr
  | recover =>
    cases hl
    simp only [next] at hr
    split at hr <;> cases hr
  | cancel => cases hl; cases hr

/-- Such a call keeps the tally. -/
theorem Life.Moved.tallied (h : Life.Moved used o o') {last : Option (Life W)} {n : Nat}
    (hknown : ∀ l, o = some l → last = some l) (hused : ∀ l, last = some l → used)
    (ht : ∀ l, last = some l → l.Tallied n) (hblank : last = none → n = 0) {l : Life W} (hl : o'.or last = some l) :
    l.Tallied n := by
  cases h with
  | stay =>
    cases o with
    | none => exact ht l hl
    | some l₀ =>
      cases hl
      exact ht _ (hknown _ rfl)
  | gone => exact ht l hl
  | born ma ms new =>
    cases hl
    have hnone : last = none := by
      cases last with
      | none => rfl
      | some l => exact absurd (hused l rfl) new
    rw [hblank hnone]
    exact .born ma ms
  | recover runs =>
    cases hl
    exact (ht _ (hknown _ rfl)).recover runs
  | cancel =>
    cases hl
    exact (ht _ (hknown _ rfl)).final trivial

end Moved

section Rule

variable {σ α ν J W : Type} [DecidableEq J] {D : Desk σ α ν J W} {P : σ → Prop} {used : σ → J → Prop} {may : α → Prop}
  {allows : Lease J W → ν → Prop} {z : Books σ J W}

/-- Where jobs are distinct, a lease is found by its job and counted once. -/
theorem lease_unique {xs : List (Lease J W)} (hn : (xs.map (·.job)).Nodup) {x : Lease J W} (hx : x ∈ xs) :
    xs.find? (·.job = x.job) = some x ∧ xs.countP (·.job = x.job) = 1 := by
  have hfind : xs.find? (·.job = x.job) = some x := find?_of_nodup (g := Lease.job) hn hx
  refine ⟨hfind, ?_⟩
  simpa using countP_of_find (k := x.job) (fun _ h => of_decide_eq_true h) hn hfind fun _ => true

/-- A job that no lease is for. -/
theorem lease_none {xs : List (Lease J W)} {j : J} (h : ∀ x ∈ xs, x.job ≠ j) :
    xs.find? (·.job = j) = none ∧ xs.countP (·.job = j) = 0 := by
  constructor
  · rw [List.find?_eq_none]
    exact fun x hx he => h x hx (of_decide_eq_true he)
  · rw [List.countP_eq_zero]
    exact fun x hx he => h x hx (of_decide_eq_true he)

/-- A call keeps the invariant. -/
theorem Desk.Kept.called (hL : D.Lawful P used may allows) (h : D.Kept P used z) {a : α} (ha : may a) :
    D.Kept P used (D.called z a) := by
  have hold : ∀ {j}, (∀ x ∈ D.leases z.store a, x.job ≠ j) → (D.called z a).claims j = z.claims j ∧
      (D.called z a).lease j = z.lease j := by
    intro j hj
    obtain ⟨hfind, hcount⟩ := lease_none hj
    simp [Desk.called, hfind, hcount]
  -- what the books say about a job that is handed out
  have hnew : ∀ x ∈ D.leases z.store a, ∃ l, D.life z.store x.job = some l ∧ l.phase = .waiting ∧
      D.life (D.call z.store a) x.job = some (l.next (.claim x.worker)) ∧ x.attempt = l.attempt + 1 ∧
      x.maxAttempts = l.maxAttempts ∧ (D.called z a).claims x.job = z.claims x.job + 1 ∧
      (D.called z a).lease x.job = some x := by
    intro x hx
    obtain ⟨hfind, hcount⟩ := lease_unique (hL.distinct a h.store) hx
    have hh := hL.handed h.store hx
    revert hh
    generalize ho : D.life z.store x.job = o
    generalize ho' : D.life (D.call z.store a) x.job = o'
    rintro ⟨waits, hat, hma⟩
    exact ⟨_, rfl, waits, rfl, hat, hma, by simp [Desk.called, hcount], by simp [Desk.called, hfind]⟩
  refine ⟨hL.call_inv h.store ha, fun j l hl => ?_, fun j hj => ?_, fun j l hl => ?_, fun j l hl => ?_,
    fun j l w x hl hw hx => ?_⟩
  · by_cases hg : ∃ x ∈ D.leases z.store a, x.job = j
    · obtain ⟨x, hx, rfl⟩ := hg
      obtain ⟨l₀, hl₀, hwait, hl', -, -, hcount, -⟩ := hnew x hx
      simp only [Desk.called, hl', Option.some_or, Option.some.injEq] at hl
      rw [hcount, ← hl]
      exact (h.tallied _ _ (h.known _ _ hl₀)).claim hwait x.worker
    · have hg : ∀ x ∈ D.leases z.store a, x.job ≠ j := fun x hx he => hg ⟨x, hx, he⟩
      rw [(hold hg).1]
      exact (hL.moved h.store ha hg).tallied (h.known j) (h.used j) (h.tallied j) (h.blank j) hl
  · obtain ⟨hnone, hlast⟩ := Option.or_eq_none_iff.mp hj
    have hg : ∀ x ∈ D.leases z.store a, x.job ≠ j := by
      rintro x hx rfl
      obtain ⟨l₀, -, -, hl', -⟩ := hnew x hx
      rw [hl'] at hnone
      cases hnone
    rw [(hold hg).1]
    exact h.blank j hlast
  · have hl : D.life (D.call z.store a) j = some l := hl
    simp [Desk.called, hl]
  · rcases Option.or_eq_some_iff.mp hl with hl | ⟨-, hl⟩
    · exact hL.life_used (hL.call_inv h.store ha) hl
    · exact hL.call_used h.store ha (h.used j l hl)
  · by_cases hg : ∃ y ∈ D.leases z.store a, y.job = j
    · obtain ⟨y, hy, rfl⟩ := hg
      obtain ⟨l₀, -, -, hl', hat, hma, -, hlease⟩ := hnew y hy
      have hl : D.life (D.call z.store a) y.job = some l := hl
      rw [hl', Option.some.injEq] at hl
      rw [hlease, Option.some.injEq] at hx
      subst hl hx
      exact ⟨hat, hma⟩
    · have hg : ∀ x ∈ D.leases z.store a, x.job ≠ j := fun x hx he => hg ⟨x, hx, he⟩
      rw [(hold hg).2] at hx
      exact h.lease j l w x ((hL.moved h.store ha hg).runs hl hw) hw hx

omit [DecidableEq J] in
/-- A verdict under the current lease keeps the tally of its job. -/
theorem Desk.Kept.ruled (h : D.Kept P used z) {x : Lease J W} (hx : z.lease x.job = some x) (hr : D.Runs z.store x)
    {o' : Option (Life W)} (hrule : Life.Ruled x (D.life z.store x.job) o') {l : Life W}
    (hl : o'.or (z.last x.job) = some l) : l.Tallied (z.claims x.job) := by
  obtain ⟨l₀, hl₀, hw⟩ := hr
  have ht := h.tallied _ _ (h.known _ _ hl₀)
  obtain ⟨hat, hma⟩ := h.lease _ _ _ x hl₀ hw hx
  rw [h.known _ _ hl₀] at hl
  rw [hl₀] at hrule
  revert hrule
  generalize ho : some l₀ = o
  intro hrule
  cases hrule with
  | stay =>
    subst ho
    cases hl
    exact ht
  | gone =>
    cases hl
    exact ht
  | complete =>
    cases ho
    cases hl
    exact ht.final trivial
  | fail =>
    cases ho
    cases hl
    exact ht.final trivial
  | retry _ left =>
    cases ho
    cases hl
    exact ht.retry hw (by rw [← hat, ← hma]; exact left)

omit [DecidableEq J] in
/-- After a verdict the job of the lease runs only if nothing has happened to it. -/
theorem Life.Ruled.runs {x : Lease J W} {o o' : Option (Life W)} (h : Life.Ruled x o o') {l : Life W} {w : Option W}
    (hl : o' = some l) (hr : l.phase = .running w) : o = some l := by
  cases h with
  | stay => exact hl
  | gone => cases hl
  | complete | fail | retry => cases hl; cases hr

omit [DecidableEq J] in
/-- A verdict keeps the invariant. -/
theorem Desk.Kept.judged (hL : D.Lawful P used may allows) (h : D.Kept P used z) {x : Lease J W} {v : ν}
    (hx : z.lease x.job = some x) (hr : D.Runs z.store x) (hv : allows x v) : D.Kept P used (D.judged z x v) := by
  refine ⟨hL.judge_inv h.store hr, fun j l hl => ?_, fun j hj => ?_, fun j l hl => ?_, fun j l hl => ?_,
    fun j l w y hl hw hy => ?_⟩
  · by_cases hj : j = x.job
    · subst hj
      exact h.ruled hx hr (hL.ruled h.store hr hv) hl
    · exact (hL.spared h.store hr hj).tallied (h.known j) (h.used j) (h.tallied j) (h.blank j) hl
  · exact h.blank j (Option.or_eq_none_iff.mp hj).2
  · have hl : D.life (D.judge z.store x.job x.worker v) j = some l := hl
    simp [Desk.judged, hl]
  · rcases Option.or_eq_some_iff.mp hl with hl | ⟨-, hl⟩
    · exact hL.life_used (hL.judge_inv h.store hr) hl
    · exact hL.judge_used x h.store hr (h.used j l hl)
  · have hl₀ : D.life z.store j = some l := by
      by_cases hj : j = x.job
      · subst hj
        exact (hL.ruled h.store hr hv).runs hl hw
      · exact (hL.spared h.store hr hj).runs hl hw
    exact h.lease j l w y hl₀ hw hy

/-- **The rule.** Every run of a lawful desk is bounded. -/
theorem Desk.Lawful.bounded (hL : D.Lawful P used may allows) {s₀ : σ} (h₀ : P s₀) (hnone : ∀ j, D.life s₀ j = none)
    (h : Reach (D.Step may allows) { store := s₀ } z) : D.Bounded z := by
  have hkept : D.Kept P used z := by
    refine Reach.inv h ⟨h₀, fun _ _ hl => (by cases hl), fun _ _ => rfl, fun j l hl => ?_, fun _ _ hl => (by cases hl),
      fun j l _ _ hl => ?_⟩ (fun z₁ b z₂ h₁ hs => ?_)
    · rw [hnone j] at hl
      cases hl
    · rw [hnone j] at hl
      cases hl
    · cases hs with
      | call a ha => exact h₁.called hL ha
      | verdict x v hx hr hv => exact h₁.judged hL hx hr hv
  exact ⟨fun j l hl => (hkept.tallied j l (hkept.known j l hl)).count,
    fun j l w hl hw => ((hkept.tallied j l (hkept.known j l hl)).running w hw).1,
    hkept.known, fun j l hl => (hkept.tallied j l hl).bound, hkept.blank⟩

end Rule

/-! ## Runs of given steps -/

section Acts

variable {σ α ν J W : Type} [DecidableEq J] (D : Desk σ α ν J W)

instance [DecidableEq W] (s : σ) (x : Lease J W) : Decidable (D.Runs s x) :=
  decidable_of_iff ((D.life s x.job).map (·.phase) = some (.running (some x.worker))) Option.map_eq_some_iff

/-- Run a step. -/
def Desk.act (z : Books σ J W) : α ⊕ Lease J W × ν → Books σ J W
  | .inl a => D.called z a
  | .inr (x, v) => D.judged z x v

/-- Each step may be taken, after the ones before it. -/
def Desk.Acts (may : α → Prop) (allows : Lease J W → ν → Prop) : Books σ J W → List (α ⊕ Lease J W × ν) → Prop
  | _, [] => True
  | z, .inl a :: as => may a ∧ Desk.Acts may allows (D.called z a) as
  | z, .inr (x, v) :: as =>
    (z.lease x.job = some x ∧ D.Runs z.store x ∧ allows x v) ∧ Desk.Acts may allows (D.judged z x v) as

theorem Desk.reach_of_acts {may : α → Prop} {allows : Lease J W → ν → Prop} {z₀ : Books σ J W} :
    ∀ (as : List (α ⊕ Lease J W × ν)) {z : Books σ J W}, Reach (D.Step may allows) z₀ z → D.Acts may allows z as →
      Reach (D.Step may allows) z₀ (as.foldl D.act z)
  | [], _, h, _ => h
  | .inl a :: as, _, h, hg => Desk.reach_of_acts as (h.step (.call a hg.1)) hg.2
  | .inr (x, v) :: as, _, h, ⟨⟨hx, hr, hv⟩, hg⟩ => Desk.reach_of_acts as (h.step (.verdict x v hx hr hv)) hg

end Acts

end Eddyq.Lib
