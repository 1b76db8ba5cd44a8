import Eddyq.Lib.Logs
import Eddyq.Lib.Rows
import Mathlib.Algebra.Order.Ring.Int

/-!
# Tearing down the application

Nest walks the modules three times, one phase after the other, in the order of their distances: root first from version 11,
deepest first in version 10. The drain modules stand at both ends, so that one of them is first, and whoever calls the `stop`
of the worker runtime waits for the one drain that the first call begins.

Any number of teardowns run at once, of a signal and of `app.close()`, between the start of the worker and the end of its drain,
and each may end where a hook of the application throws. Of a worker that had started when a teardown began, no other hook of
the teardown runs before the drain is over; the drain is begun once; and the pool is closed once by each, after the application's
own hooks of the first two phases and under no drain that its `stop` saw (`reached_ordered`).
-/

namespace Eddyq.Nest

open Lib

/-! ## The modules and their hooks -/

inductive Phase
  | onModuleDestroy
  | beforeApplicationShutdown
  | onApplicationShutdown
  deriving DecidableEq

def phases : List Phase := [.onModuleDestroy, .beforeApplicationShutdown, .onApplicationShutdown]

/-- A module of the application, and the phases in which it or one of its providers has a hook. -/
structure UserModule where
  name : String
  /-- From the root, which is 1; a global module has `maxValue`. -/
  distance : ℕ
  hooks : List Phase
  deriving DecidableEq

inductive ModuleRef
  | user (m : UserModule)
  | eddyqModule
  | eddyqDrainModule
  | eddyqDrainModuleNest10
  deriving DecidableEq

/-- The distances of modules among the numbers. -/
inductive Distance
  | finite (n : ℤ)
  | infinity

def Distance.le : Distance → Distance → Bool
  | _, .infinity => true
  | .infinity, .finite _ => false
  | .finite m, .finite n => m ≤ n

/-- `Number.MAX_VALUE`. -/
def maxValue : ℤ := (2 ^ 53 - 1) * 2 ^ 971

def ModuleRef.distance : ModuleRef → Distance
  | .user m => .finite m.distance
  | .eddyqModule => .finite maxValue
  | .eddyqDrainModule => .finite (-1)
  | .eddyqDrainModuleNest10 => .infinity

/-- What a hook does: `stop` of the worker runtime, the application's own hook, or `close` of the queue. -/
inductive Call
  | stop
  | hook (m : UserModule) (phase : Phase)
  | close
  deriving DecidableEq

/-- The calls of a module in a phase; only a queue with a Postgres path is closed. -/
def ModuleRef.calls (hasPgPath : Bool) (phase : Phase) : ModuleRef → List Call
  | .user m => if phase ∈ m.hooks then [.hook m phase] else []
  | .eddyqModule => if phase = .onApplicationShutdown then .stop :: (if hasPgPath then [.close] else []) else []
  | .eddyqDrainModule => if phase = .onModuleDestroy then [.stop] else []
  | .eddyqDrainModuleNest10 => if phase = .onModuleDestroy then [.stop] else []

/-- The major versions of Nest. -/
inductive Major
  | nest10
  | nest11

/-- The modules in the order they were added, with those that `forRoot` brings. -/
structure Container where
  modules : List ModuleRef
  hasPgPath : Bool
  major : Major
  nodup : modules.Nodup
  drain_mem : .eddyqDrainModule ∈ modules
  drainNest10_mem : .eddyqDrainModuleNest10 ∈ modules

/-- Whether a module is walked before another. -/
def Major.walks : Major → ModuleRef → ModuleRef → Bool
  | .nest11, a, b => a.distance.le b.distance
  | .nest10, a, b => b.distance.le a.distance

def Container.sorted (c : Container) : List ModuleRef := orderBy c.major.walks c.modules

/-- The calls of a teardown, in order. -/
def Container.plan (c : Container) : List Call := phases.flatMap fun phase => c.sorted.flatMap (·.calls c.hasPgPath phase)

/-! ## The worker runtime -/

/-- The promise of a drain; its failure is logged and settles it too. -/
inductive Drain
  | pending
  | settled
  deriving DecidableEq

structure EddyqWorkerRuntime where
  running : Bool := false
  stopping : Option Drain := none

def EddyqWorkerRuntime.markStarted (r : EddyqWorkerRuntime) : EddyqWorkerRuntime := { r with running := true }

/-- `stop`, and whether it calls `shutdown` of the queue. The caller awaits `stopping`. -/
def EddyqWorkerRuntime.stop (r : EddyqWorkerRuntime) : EddyqWorkerRuntime × Bool :=
  if !r.running then (r, false) else ({ running := false, stopping := some .pending }, true)

/-! ## Teardowns -/

/-- A teardown: the calls it has yet to make, and whether it awaits the drain. -/
structure Teardown where
  rest : List Call
  awaits : Bool := false

inductive Event
  | started
  | begun (p : ℕ)
  | called (p : ℕ) (call : Call)
  | shutdown
  | settled

/-- The application, with what has happened in it. -/
structure Application where
  runtime : EddyqWorkerRuntime := {}
  teardowns : ℕ → Option Teardown := fun _ => none
  log : List Event := []

/-- A call of a teardown, which leaves it with the rest. -/
def Application.perform (a : Application) (p : ℕ) (rest : List Call) : Call → Application
  | .stop =>
    let (runtime, drains) := a.runtime.stop
    { runtime := runtime
      teardowns := Function.update a.teardowns p (some { rest := rest, awaits := runtime.stopping.isSome })
      log := a.log ++ [.called p .stop] ++ if drains then [.shutdown] else [] }
  | call =>
    { a with
      teardowns := Function.update a.teardowns p (some { rest := rest })
      log := a.log ++ [.called p call] }

theorem Application.perform_running {a : Application} (h : a.runtime.running = true) (p : ℕ) (rest : List Call) :
    a.perform p rest .stop =
      { runtime := { running := false, stopping := some .pending }
        teardowns := Function.update a.teardowns p (some { rest := rest, awaits := true })
        log := a.log ++ [.called p .stop] ++ [.shutdown] } := by
  simp [Application.perform, EddyqWorkerRuntime.stop, h]

theorem Application.perform_stopped {a : Application} (h : ¬ a.runtime.running = true) (p : ℕ) (rest : List Call) :
    a.perform p rest .stop =
      { a with
        teardowns := Function.update a.teardowns p (some { rest := rest, awaits := a.runtime.stopping.isSome })
        log := a.log ++ [.called p .stop] } := by
  simp [Application.perform, EddyqWorkerRuntime.stop, h]

theorem Application.perform_other {call : Call} (h : call ≠ .stop) (a : Application) (p : ℕ) (rest : List Call) :
    a.perform p rest call =
      { a with teardowns := Function.update a.teardowns p (some { rest := rest }), log := a.log ++ [.called p call] } := by
  cases call with
  | stop => exact absurd rfl h
  | hook m phase => rfl
  | close => rfl

inductive Application.Step (c : Container) (a : Application) : Application → Prop
  /-- The bootstrap has started the worker. -/
  | markStarted (once : .started ∉ a.log) : Step c a { a with runtime := a.runtime.markStarted, log := a.log ++ [.started] }
  | begin {p : ℕ} (new : a.teardowns p = none) :
      Step c a { a with teardowns := Function.update a.teardowns p (some { rest := c.plan }), log := a.log ++ [.begun p] }
  | call {p : ℕ} {t : Teardown} {call : Call} {rest : List Call} (teardown : a.teardowns p = some t) (next : t.rest = call :: rest)
      (ready : t.awaits = true → a.runtime.stopping = some .settled) : Step c a (a.perform p rest call)
  /-- A hook of the application throws, or never returns. -/
  | throws {p : ℕ} {t : Teardown} (teardown : a.teardowns p = some t) :
      Step c a { a with teardowns := Function.update a.teardowns p (some { t with rest := [] }) }
  | settle (pending : a.runtime.stopping = some .pending) :
      Step c a { a with runtime := { a.runtime with stopping := some .settled }, log := a.log ++ [.settled] }

inductive Application.Reached (c : Container) : Application → Prop
  | refl : Reached c {}
  | tail {a a' : Application} (reached : Reached c a) (step : a.Step c a') : Reached c a'

/-- The calls of a teardown, in a log. -/
def callsOf (p : ℕ) (log : List Event) : List Call :=
  log.filterMap fun
    | .called q call => if q = p then some call else none
    | _ => none

/-- What stands before an event. -/
def Ordered (c : Container) (before : List Event) : Event → Prop
  | .shutdown => .started ∈ before ∧ .shutdown ∉ before
  | .settled => .shutdown ∈ before ∧ .settled ∉ before
  | .called p (.hook _ _) => [.started, .begun p].Sublist before → [.shutdown, .settled].Sublist before
  | .called p .close =>
    ([.started, .called p .stop].Sublist before → [.shutdown, .settled].Sublist before) ∧ .called p .close ∉ before ∧
      ∀ m, .user m ∈ c.modules → ∀ phase ∈ m.hooks, phase ≠ .onApplicationShutdown → .called p (.hook m phase) ∈ before
  | _ => True

/-! ## The plan of a teardown -/

section Plan

variable {c : Container}

theorem maxValue_pos : 0 < maxValue := Int.mul_pos (by decide) (Int.pow_pos (by decide))

theorem Distance.le_total (a b : Distance) : a.le b = true ∨ b.le a = true := by
  cases a with
  | infinity => exact .inr rfl
  | finite m =>
    cases b with
    | infinity => exact .inl rfl
    | finite n => simpa [Distance.le] using Int.le_total m n

theorem Distance.le_trans {a b d : Distance} (hab : a.le b = true) (hbd : b.le d = true) : a.le d = true := by
  cases d with
  | infinity => rfl
  | finite k =>
    cases b with
    | infinity => cases hbd
    | finite n =>
      cases a with
      | infinity => cases hab
      | finite m =>
        simp only [Distance.le, decide_eq_true_eq] at hab hbd ⊢
        omega

theorem Major.walks_total (v : Major) (a b : ModuleRef) : v.walks a b = true ∨ v.walks b a = true := by
  cases v with
  | nest11 => exact Distance.le_total _ _
  | nest10 => exact Distance.le_total _ _

theorem Major.walks_trans (v : Major) (a b d : ModuleRef) (hab : v.walks a b = true) (hbd : v.walks b d = true) :
    v.walks a d = true := by
  cases v with
  | nest11 => exact Distance.le_trans hab hbd
  | nest10 => exact Distance.le_trans hbd hab

/-- A drain module stands before every other module. -/
theorem Major.drain_first (v : Major) : ∃ d, (d = .eddyqDrainModule ∨ d = .eddyqDrainModuleNest10) ∧
    ∀ m, v.walks m d = true → m = d := by
  cases v with
  | nest11 =>
    refine ⟨.eddyqDrainModule, .inl rfl, fun m hm => ?_⟩
    cases m with
    | user m =>
      have : (m.distance : ℤ) ≤ -1 := of_decide_eq_true hm
      omega
    | eddyqModule =>
      simp only [Major.walks, ModuleRef.distance, Distance.le, decide_eq_true_eq] at hm
      have := maxValue_pos
      omega
    | eddyqDrainModule => rfl
    | eddyqDrainModuleNest10 => cases hm
  | nest10 =>
    refine ⟨.eddyqDrainModuleNest10, .inr rfl, fun m hm => ?_⟩
    cases m with
    | eddyqDrainModuleNest10 => rfl
    | user m => cases hm
    | eddyqModule => cases hm
    | eddyqDrainModule => cases hm

/-- Whichever way the modules are walked, the worker is stopped first. -/
theorem Container.plan_head (c : Container) : ∃ rest, c.plan = .stop :: rest := by
  obtain ⟨d, hd, hfirst⟩ := c.major.drain_first
  have hmem : d ∈ c.sorted := by
    rw [Container.sorted, mem_orderBy]
    rcases hd with rfl | rfl
    · exact c.drain_mem
    · exact c.drainNest10_mem
  have hpair := pairwise_orderBy c.major.walks_total c.major.walks_trans c.modules
  have hcalls : d.calls c.hasPgPath .onModuleDestroy = [.stop] := by
    rcases hd with rfl | rfl <;> rfl
  rw [← Container.sorted] at hpair
  unfold Container.plan phases
  cases hsorted : c.sorted with
  | nil => simp [hsorted] at hmem
  | cons m ms =>
    have hm : m = d := by
      rw [hsorted] at hmem hpair
      rcases List.mem_cons.mp hmem with heq | hlater
      · exact heq.symm
      · exact hfirst m (List.rel_of_pairwise_cons hpair hlater)
    subst hm
    rw [List.flatMap_cons, List.flatMap_cons, hcalls]
    exact ⟨_, rfl⟩

/-- Only the module of the queue closes it, and last. -/
theorem ModuleRef.count_close (hasPgPath : Bool) (phase : Phase) (m : ModuleRef) :
    (m.calls hasPgPath phase).count .close ≤ if phase = .onApplicationShutdown then [m].count .eddyqModule else 0 := by
  cases m with
  | user m => by_cases h : phase ∈ m.hooks <;> simp [ModuleRef.calls, h]
  | eddyqModule => cases phase <;> cases hasPgPath <;> decide
  | eddyqDrainModule => cases phase <;> simp [ModuleRef.calls]
  | eddyqDrainModuleNest10 => cases phase <;> simp [ModuleRef.calls]

theorem count_close (hasPgPath : Bool) (phase : Phase) (ms : List ModuleRef) :
    (ms.flatMap (·.calls hasPgPath phase)).count .close ≤
      if phase = .onApplicationShutdown then ms.count .eddyqModule else 0 := by
  induction ms with
  | nil => simp
  | cons m ms ih =>
    have hm := m.count_close hasPgPath phase
    rw [List.flatMap_cons, List.count_append]
    split
    · next hphase =>
      rw [if_pos hphase] at hm ih
      have : (m :: ms).count .eddyqModule = [m].count .eddyqModule + ms.count .eddyqModule := by
        rw [← List.count_append, List.singleton_append]
      omega
    · next hphase =>
      rw [if_neg hphase] at hm ih
      omega

/-- The calls of a phase. -/
def Container.callsIn (c : Container) (phase : Phase) : List Call := c.sorted.flatMap (·.calls c.hasPgPath phase)

theorem Container.plan_eq (c : Container) :
    c.plan = (c.callsIn .onModuleDestroy ++ c.callsIn .beforeApplicationShutdown) ++ c.callsIn .onApplicationShutdown := by
  simp [Container.plan, phases, Container.callsIn]

theorem Container.hook_mem {m : UserModule} {phase : Phase} (hm : .user m ∈ c.modules) (hp : phase ∈ m.hooks) :
    .hook m phase ∈ c.callsIn phase :=
  List.mem_flatMap.mpr ⟨.user m, mem_orderBy.mpr hm, by simp [ModuleRef.calls, hp]⟩

/-- What a teardown has called when it closes the queue: not `close`, and all hooks of the first two phases. -/
theorem Container.close_last {done rest : List Call} (h : (done ++ .close :: rest).IsPrefix c.plan) :
    .close ∉ done ∧ ∀ m, .user m ∈ c.modules → ∀ phase ∈ m.hooks, phase ≠ .onApplicationShutdown → .hook m phase ∈ done := by
  have hsorted : c.sorted.count .eddyqModule ≤ 1 :=
    List.nodup_iff_count_le_one.mp ((perm_orderBy c.major.walks c.modules).nodup_iff.mpr c.nodup) _
  have hfirst : (c.callsIn .onModuleDestroy ++ c.callsIn .beforeApplicationShutdown).count .close = 0 := by
    have h₁ := count_close c.hasPgPath .onModuleDestroy c.sorted
    have h₂ := count_close c.hasPgPath .beforeApplicationShutdown c.sorted
    rw [List.count_append, Container.callsIn, Container.callsIn]
    simp only [reduceCtorEq, if_false] at h₁ h₂
    omega
  have hlast : (c.callsIn .onApplicationShutdown).count .close ≤ 1 :=
    (count_close c.hasPgPath .onApplicationShutdown c.sorted).trans hsorted
  rw [c.plan_eq] at h
  constructor
  · intro hmem
    have hle := h.sublist.count_le .close
    have hpos := List.count_pos_iff.mpr hmem
    rw [List.count_append, List.count_append, hfirst, List.count_cons_self] at hle
    omega
  · intro m hm phase hp hphase
    have hhook : .hook m phase ∈ c.callsIn .onModuleDestroy ++ c.callsIn .beforeApplicationShutdown := by
      have := Container.hook_mem hm hp
      cases phase with
      | onModuleDestroy => exact List.mem_append_left _ this
      | beforeApplicationShutdown => exact List.mem_append_right _ this
      | onApplicationShutdown => exact absurd rfl hphase
    have hclosed : (done ++ [Call.close]).IsPrefix
        ((c.callsIn .onModuleDestroy ++ c.callsIn .beforeApplicationShutdown) ++ c.callsIn .onApplicationShutdown) :=
      List.IsPrefix.trans ⟨rest, by simp⟩ h
    rcases List.prefix_or_prefix_of_prefix hclosed (List.prefix_append _ _) with hshort | hlong
    · have := hshort.subset (List.mem_append_right _ (List.mem_singleton_self _))
      exact absurd (List.count_pos_iff.mpr this) (by omega)
    · rcases List.mem_append.mp (hlong.subset hhook) with hdone | hclose
      · exact hdone
      · exact absurd (List.mem_singleton.mp hclose) (by simp)

end Plan

/-! ## The invariant -/

/-- A teardown against the log and the drain: it has called what its plan had before the rest, and where it stopped a worker that
had started it awaits the drain, or the drain is over. -/
structure Teardown.Inv (c : Container) (log : List Event) (stopping : Option Drain) (p : ℕ) (t : Teardown) : Prop where
  calls : (callsOf p log ++ t.rest).IsPrefix c.plan
  stopped : [.started, .called p .stop].Sublist log → t.awaits = true ∨ stopping = some .settled
  begun : [.started, .begun p].Sublist log → callsOf p log ≠ [] → t.awaits = true ∨ stopping = some .settled

/-- A teardown that may not have begun. -/
def TeardownInv (c : Container) (log : List Event) (stopping : Option Drain) (p : ℕ) : Option Teardown → Prop
  | none => .begun p ∉ log ∧ callsOf p log = []
  | some t => t.Inv c log stopping p

structure Application.Inv (c : Container) (a : Application) : Prop where
  ordered : Each (Ordered c) a.log
  started : .started ∈ a.log ↔ a.runtime.running = true ∨ a.runtime.stopping.isSome
  running : a.runtime.running = true → a.runtime.stopping = none
  shutdown : .shutdown ∈ a.log ↔ a.runtime.stopping.isSome
  pending : .settled ∈ a.log → a.runtime.stopping = some .settled
  settled : a.runtime.stopping = some .settled → [.shutdown, .settled].Sublist a.log
  teardowns : ∀ p, TeardownInv c a.log a.runtime.stopping p (a.teardowns p)

theorem callsOf_snoc (p : ℕ) (log : List Event) (e : Event) : callsOf p (log ++ [e]) = callsOf p log ++ callsOf p [e] :=
  List.filterMap_append

theorem mem_callsOf {p : ℕ} {log : List Event} {call : Call} (h : call ∈ callsOf p log) : .called p call ∈ log := by
  obtain ⟨e, he, hcall⟩ := List.mem_filterMap.mp h
  cases e with
  | called q call' =>
    dsimp only at hcall
    split at hcall
    · next hq =>
      cases hcall
      exact hq ▸ he
    · cases hcall
  | started => cases hcall
  | begun q => cases hcall
  | shutdown => cases hcall
  | settled => cases hcall

theorem callsOf_mem {p : ℕ} {log : List Event} {call : Call} (h : .called p call ∈ log) : call ∈ callsOf p log :=
  List.mem_filterMap.mpr ⟨_, h, by simp⟩

section Steps

variable {c : Container} {a a' : Application} {log : List Event} {stopping stopping' : Option Drain} {p : ℕ} {e : Event}

/-- Something happens that is not of this teardown, and a drain that is over stays so. -/
theorem TeardownInv.snoc {o : Option Teardown} (h : TeardownInv c log stopping p o) (hbegun : e ≠ .begun p)
    (hcalled : callsOf p [e] = []) (hover : stopping = some .settled → stopping' = some .settled) :
    TeardownInv c (log ++ [e]) stopping' p o := by
  have hstop : e ≠ .called p .stop := by
    rintro rfl
    simp [callsOf] at hcalled
  have hcalls : callsOf p (log ++ [e]) = callsOf p log := by rw [callsOf_snoc, hcalled, List.append_nil]
  cases o with
  | none =>
    refine ⟨fun hmem => ?_, hcalls.trans h.2⟩
    rcases List.mem_append.mp hmem with hmem | hmem
    · exact h.1 hmem
    · exact hbegun (List.mem_singleton.mp hmem).symm
  | some t =>
    refine ⟨hcalls.symm ▸ h.calls, fun hsub => ?_, fun hsub hne => ?_⟩
    · rcases pair_snoc hsub with hsub | ⟨-, heq⟩
      · exact (h.stopped hsub).imp id hover
      · exact absurd heq.symm hstop
    · rcases pair_snoc hsub with hsub | ⟨-, heq⟩
      · exact (h.begun hsub (hcalls ▸ hne)).imp id hover
      · exact absurd heq.symm hbegun

/-- The first call of a plan is a stop. -/
theorem Teardown.Inv.first {t : Teardown} (h : t.Inv c log stopping p) {call : Call} {rest : List Call} (next : t.rest = call :: rest)
    (hcall : call ≠ .stop) : callsOf p log ≠ [] := by
  intro hnil
  obtain ⟨tail, hplan⟩ := c.plan_head
  have hcalls := h.calls
  rw [hnil, next, hplan, List.nil_append, List.cons_prefix_cons] at hcalls
  exact hcall hcalls.1

/-- A call of the teardown moves it on in its plan. -/
theorem Teardown.Inv.calls_snoc {t : Teardown} (h : t.Inv c log stopping p) {call : Call} {rest : List Call}
    (next : t.rest = call :: rest) : (callsOf p (log ++ [.called p call]) ++ rest).IsPrefix c.plan := by
  have hcalls := h.calls
  rw [next] at hcalls
  rw [callsOf_snoc]
  simpa [callsOf] using hcalls

theorem callsOf_ne {q : ℕ} (hq : q ≠ p) (call : Call) : callsOf q [.called p call] = [] := by
  simp [callsOf, Ne.symm hq]

/-- The teardown `p` is put somewhere, and the others are where they were. -/
theorem update_inv {teardowns : ℕ → Option Teardown} {t : Teardown} (hp : t.Inv c log stopping p)
    (hothers : ∀ q, q ≠ p → TeardownInv c log stopping q (teardowns q)) (q : ℕ) :
    TeardownInv c log stopping q (Function.update teardowns p (some t) q) := by
  by_cases hq : q = p
  · subst hq
    rw [Function.update_self]
    exact hp
  · rw [Function.update_of_ne hq]
    exact hothers q hq

theorem Application.inv_init (c : Container) : Application.Inv c {} where
  ordered := each_nil
  started := by simp
  running := by simp
  shutdown := by simp
  pending := by simp
  settled := by simp
  teardowns _ := ⟨List.not_mem_nil, rfl⟩

namespace Application.Inv

theorem markStarted (h : a.Inv c) (once : .started ∉ a.log) :
    Application.Inv c { a with runtime := a.runtime.markStarted, log := a.log ++ [.started] } := by
  have hidle : ¬ (a.runtime.running = true ∨ a.runtime.stopping.isSome) := fun hs => once (h.started.mpr hs)
  rw [not_or, Bool.not_eq_true, Bool.not_eq_true, Option.isSome_eq_false_iff, Option.isNone_iff_eq_none] at hidle
  refine ⟨h.ordered.snoc trivial, ?_, fun _ => hidle.2, ?_, ?_, ?_, fun p => ?_⟩
  · simp [EddyqWorkerRuntime.markStarted]
  · simpa [EddyqWorkerRuntime.markStarted] using h.shutdown
  · simpa [EddyqWorkerRuntime.markStarted] using h.pending
  · exact fun hs => (h.settled hs).trans (List.sublist_append_left _ _)
  · exact (h.teardowns p).snoc (by simp) rfl id

theorem begin (h : a.Inv c) (new : a.teardowns p = none) :
    Application.Inv c { a with
      teardowns := Function.update a.teardowns p (some { rest := c.plan }), log := a.log ++ [.begun p] } := by
  have hnew := h.teardowns p
  rw [new] at hnew
  have hnone : callsOf p (a.log ++ [.begun p]) = [] := by
    rw [callsOf_snoc, hnew.2]
    rfl
  refine ⟨h.ordered.snoc trivial, ?_, h.running, ?_, ?_, ?_, update_inv ?_ ?_⟩
  · simpa using h.started
  · simpa using h.shutdown
  · simpa using h.pending
  · exact fun hs => (h.settled hs).trans (List.sublist_append_left _ _)
  · refine ⟨hnone.symm ▸ List.prefix_refl _, fun hsub => ?_, fun _ hne => absurd hnone hne⟩
    have hmem : Event.called p .stop ∈ a.log ++ [.begun p] := hsub.subset (by simp)
    have := callsOf_mem hmem
    rw [hnone] at this
    exact absurd this List.not_mem_nil
  · exact fun q hq => (h.teardowns q).snoc (by simpa using Ne.symm hq) rfl id

theorem throws (h : a.Inv c) {t : Teardown} (teardown : a.teardowns p = some t) :
    Application.Inv c { a with teardowns := Function.update a.teardowns p (some { t with rest := [] }) } := by
  have ht := h.teardowns p
  rw [teardown] at ht
  refine ⟨h.ordered, h.started, h.running, h.shutdown, h.pending, h.settled, update_inv ?_ fun q _ => h.teardowns q⟩
  exact ⟨(List.append_nil _).symm ▸ (List.prefix_append _ _).trans ht.calls, ht.stopped, ht.begun⟩

theorem settle (h : a.Inv c) (pending : a.runtime.stopping = some .pending) :
    Application.Inv c { a with runtime := { a.runtime with stopping := some .settled }, log := a.log ++ [.settled] } := by
  have hshutdown : .shutdown ∈ a.log := h.shutdown.mpr (by rw [pending]; rfl)
  have hsettled : .settled ∉ a.log := fun hmem => by simpa [pending] using h.pending hmem
  refine ⟨h.ordered.snoc ⟨hshutdown, hsettled⟩, ?_, ?_, ?_, fun _ => rfl, fun _ => pair_of_mem hshutdown, fun q => ?_⟩
  · simpa [pending] using h.started
  · intro hrunning
    have := h.running hrunning
    rw [pending] at this
    cases this
  · simpa using hshutdown
  · exact (h.teardowns q).snoc (by simp) rfl fun _ => rfl

/-- A stop that finds the worker running begins the drain; any other awaits what there is of it. -/
theorem stop (h : a.Inv c) {t : Teardown} {rest : List Call} (teardown : a.teardowns p = some t) (next : t.rest = .stop :: rest) :
    (a.perform p rest .stop).Inv c := by
  have ht := h.teardowns p
  rw [teardown] at ht
  have hcalls := Teardown.Inv.calls_snoc ht next
  by_cases hrunning : a.runtime.running = true
  · have hnone := h.running hrunning
    have hstarted : .started ∈ a.log := h.started.mpr (.inl hrunning)
    have hshutdown : .shutdown ∉ a.log := fun hmem => by simpa [hnone] using h.shutdown.mp hmem
    have hsettled : .settled ∉ a.log := fun hmem => by simpa [hnone] using h.pending hmem
    rw [Application.perform_running hrunning]
    have hstopped : Each (Ordered c) (a.log ++ [.called p .stop]) := h.ordered.snoc trivial
    refine ⟨hstopped.snoc ⟨by simp [hstarted], by simp [hshutdown]⟩, ?_, ?_, ?_, ?_, ?_, update_inv ?_ ?_⟩
    · simp [hstarted]
    · simp
    · simp
    · simp [hsettled]
    · simp
    · refine ⟨?_, fun _ => .inl rfl, fun _ _ => .inl rfl⟩
      rw [callsOf_snoc]
      exact (List.append_nil _).symm ▸ hcalls
    · intro q hq
      have hstop : a.runtime.stopping = some .settled → some Drain.pending = some .settled := by simp [hnone]
      exact ((h.teardowns q).snoc (by simp) (callsOf_ne hq .stop) hstop).snoc (by simp) rfl id
  · have hawaits : .started ∈ a.log → a.runtime.stopping.isSome = true := fun hmem =>
      (h.started.mp hmem).resolve_left hrunning
    rw [Application.perform_stopped hrunning]
    have hin : ∀ {e : Event}, [.started, e].Sublist (a.log ++ [.called p .stop]) → a.runtime.stopping.isSome = true := by
      intro e hsub
      have hmem : Event.started ∈ a.log ++ [.called p .stop] := hsub.subset (by simp)
      exact hawaits (by simpa using hmem)
    refine ⟨h.ordered.snoc trivial, ?_, h.running, ?_, ?_, ?_, update_inv ?_ ?_⟩
    · simpa using h.started
    · simpa using h.shutdown
    · simpa using h.pending
    · exact fun hs => (h.settled hs).trans (List.sublist_append_left _ _)
    · exact ⟨hcalls, fun hsub => .inl (hin hsub), fun hsub _ => .inl (hin hsub)⟩
    · exact fun q hq => (h.teardowns q).snoc (by simp) (callsOf_ne hq .stop) id

/-- Any other call comes when no drain is awaited any more. -/
theorem call (h : a.Inv c) {t : Teardown} {call : Call} {rest : List Call} (teardown : a.teardowns p = some t)
    (next : t.rest = call :: rest) (ready : t.awaits = true → a.runtime.stopping = some .settled) :
    (a.perform p rest call).Inv c := by
  by_cases hstop : call = .stop
  · subst hstop
    exact h.stop teardown next
  have ht := h.teardowns p
  rw [teardown] at ht
  have hdone : t.awaits = true ∨ a.runtime.stopping = some .settled → a.runtime.stopping = some .settled := fun ho =>
    ho.elim ready id
  have hfirst := Teardown.Inv.first ht next hstop
  have hordered : Ordered c a.log (.called p call) := by
    cases call with
    | stop => exact absurd rfl hstop
    | hook m phase => exact fun hsub => h.settled (hdone (ht.begun hsub hfirst))
    | close =>
      have hcalls := ht.calls
      rw [next] at hcalls
      obtain ⟨hnot, hhooks⟩ := Container.close_last hcalls
      exact ⟨fun hsub => h.settled (hdone (ht.stopped hsub)), fun hmem => hnot (callsOf_mem hmem),
        fun m hm phase hp hphase => mem_callsOf (hhooks m hm phase hp hphase)⟩
  rw [Application.perform_other hstop]
  refine ⟨h.ordered.snoc hordered, ?_, h.running, ?_, ?_, ?_, update_inv ?_ ?_⟩
  · simpa using h.started
  · simpa using h.shutdown
  · simpa using h.pending
  · exact fun hs => (h.settled hs).trans (List.sublist_append_left _ _)
  · refine ⟨Teardown.Inv.calls_snoc ht next, fun hsub => .inr ?_, fun hsub _ => .inr ?_⟩
    · rcases pair_snoc hsub with hsub | ⟨-, heq⟩
      · exact hdone (ht.stopped hsub)
      · simp [Ne.symm hstop] at heq
    · rcases pair_snoc hsub with hsub | ⟨-, heq⟩
      · exact hdone (ht.begun hsub hfirst)
      · simp at heq
  · exact fun q hq => (h.teardowns q).snoc (by simp) (callsOf_ne hq call) id

theorem step (h : a.Inv c) (hs : a.Step c a') : a'.Inv c := by
  cases hs with
  | markStarted once => exact h.markStarted once
  | begin new => exact h.begin new
  | call teardown next ready => exact h.call teardown next ready
  | throws teardown => exact h.throws teardown
  | settle pending => exact h.settle pending

end Application.Inv

end Steps

/-! ## What it gives -/

/-- In every run, each event has before it what is to be there, and each teardown makes the calls of its plan in order. -/
theorem reached_ordered {c : Container} {a : Application} (h : Application.Reached c a) :
    Each (Ordered c) a.log ∧ ∀ p, (callsOf p a.log).IsPrefix c.plan := by
  have hinv : a.Inv c := by
    induction h with
    | refl => exact Application.inv_init c
    | tail _ hs ih => exact ih.step hs
  refine ⟨hinv.ordered, fun p => ?_⟩
  have ht := hinv.teardowns p
  cases hp : a.teardowns p with
  | none =>
    rw [hp] at ht
    rw [ht.2]
    exact List.nil_prefix
  | some t =>
    rw [hp] at ht
    exact (List.prefix_append _ _).trans ht.calls

/-- The database of an application, closed in `onModuleDestroy`. -/
def databaseModule : UserModule where
  name := "DatabaseModule"
  distance := 2
  hooks := [.onModuleDestroy]

/-- `forRoot` with Postgres, and the database, under Nest 10. -/
def databaseContainer : Container where
  modules := [.eddyqModule, .eddyqDrainModule, .eddyqDrainModuleNest10, .user databaseModule]
  hasPgPath := true
  major := .nest10
  nodup := by decide
  drain_mem := by decide
  drainNest10_mem := by decide

/-- The deepest module is the drain, under Nest 10. -/
theorem databasePlan :
    databaseContainer.plan = [.stop, .hook databaseModule .onModuleDestroy, .stop, .stop, .close] := by decide +kernel

/-- The worker has started, and a teardown has come to the database. -/
def databaseLog : List Event :=
  [.started, .begun 0, .called 0 .stop, .shutdown, .settled, .called 0 (.hook databaseModule .onModuleDestroy)]

theorem databaseLog_reached : ∃ a, Application.Reached databaseContainer a ∧ a.log = databaseLog := by
  have hstarted := Application.Reached.refl (c := databaseContainer).tail (.markStarted List.not_mem_nil)
  have hbegun := hstarted.tail (.begin (p := 0) rfl)
  have hstopped := hbegun.tail (.call (p := 0) rfl databasePlan (by simp))
  have hsettled := hstopped.tail (.settle rfl)
  exact ⟨_, hsettled.tail (.call (p := 0) rfl rfl fun _ => rfl), rfl⟩

theorem reached_ordered_database :
    Each (Ordered databaseContainer) databaseLog ∧ ∀ p, (callsOf p databaseLog).IsPrefix databaseContainer.plan := by
  obtain ⟨a, hreached, hlog⟩ := databaseLog_reached
  rw [← hlog]
  exact reached_ordered hreached

end Eddyq.Nest
