import Eddyq.Lib.Runs
import Eddyq.Runtime.Envelope

/-!
# The shutdown broadcast in JavaScript

One queue of `lib.cjs`: the state that `stateFor` keeps for it, the calls of its wrapped handlers, and the callback that
`ensureAbortHandler` gives to the native side. A step is what JavaScript runs without waiting: a call of the wrapper up to the first
wait of its handler, a handler that settles, the wrapper that goes on after its `await`, the broadcast. The controllers in the set
are those of the calls whose wrapper has not gone on (`Kept`), so that the broadcast reaches every one of them
(`shutdown_reaches`).
-/

namespace Eddyq.Js

open Lib

/-! ## State -/

/-- What `stateFor` keeps for a queue; a controller is a number. -/
structure InstanceState where
  controllers : List Nat := []
  abortRegistered : Bool := false
  abortedWith : Option Thrown := none

/-- A call of a wrapped handler. -/
inductive Call
  /-- Rejected before its handler was called. -/
  | refused (message : List Char)
  | running (controller : Nat)
  /-- Its handler has settled, and the wrapper has not gone on. -/
  | settled (controller : Nat) (result : Except Thrown JsValue)
  | finished (controller : Nat) (result : Except (List Char) JsValue)

/-- The controller that the wrapper has still to take out of the set. -/
def Call.controller : Call → Option Nat
  | .running c | .settled c _ => some c
  | .refused _ | .finished _ _ => none

/-- The queue on both sides: its entry of `instanceState`, whether the native side has the callback, the kinds with a handler, the
controllers made so far with what they were aborted with, and the calls. -/
structure Queue where
  instanceState : Option InstanceState := none
  abortHandler : Bool := false
  handlers : List JsString := []
  created : Nat := 0
  signals : Nat → Option Thrown := fun _ => none
  calls : List Call := []

/-- `stateFor`. -/
def stateFor (q : Queue) : InstanceState := q.instanceState.getD {}

/-- `abort` of a controller, whose first reason stays. -/
def abort (err : Thrown) (signals : Nat → Option Thrown) (c : Nat) : Nat → Option Thrown :=
  Function.update signals c (signals c <|> some err)

/-! ## Steps -/

/-- `ensureAbortHandler`. -/
def ensureAbortHandler (q : Queue) : Queue :=
  let s := stateFor q
  if s.abortRegistered then { q with instanceState := some s }
  else { q with instanceState := some { s with abortRegistered := true }, abortHandler := true }

/-- `work`, which the native side may refuse. -/
def work (kind : JsString) (accepted : Bool) (q : Queue) : Queue :=
  let q := ensureAbortHandler q
  if accepted then { q with handlers := q.handlers ++ [kind] } else q

/-- What a handler does before it first waits. -/
inductive Start
  | throws (e : Thrown)
  | returns (result : Except Thrown JsValue)
  | waits

/-- A call of the wrapper, up to its `await`. -/
def dispatch (start : Start) (q : Queue) : Queue :=
  let s := stateFor q
  match s.abortedWith with
  | some err => { q with calls := q.calls ++ [.refused (rethrow err)] }
  | none =>
    let c := q.created
    let q := { q with created := c + 1, instanceState := some { s with controllers := s.controllers ++ [c] } }
    match start with
    | .throws e => { q with
        instanceState := some { s with controllers := (s.controllers ++ [c]).erase c }
        calls := q.calls ++ [.finished c (wrapHandler none (.error e))] }
    | .returns result => { q with calls := q.calls ++ [.settled c result] }
    | .waits => { q with calls := q.calls ++ [.running c] }

/-- A handler that settles. -/
def settle (i : Nat) (result : Except Thrown JsValue) (q : Queue) : Queue :=
  match q.calls[i]? with
  | some (.running c) => { q with calls := q.calls.set i (.settled c result) }
  | _ => q

/-- The wrapper after its `await`, with its `finally`. -/
def resume (i : Nat) (q : Queue) : Queue :=
  let s := stateFor q
  match q.calls[i]? with
  | some (.settled c result) => { q with
      instanceState := some { s with controllers := s.controllers.erase c }
      calls := q.calls.set i (.finished c (wrapHandler none result)) }
  | _ => q

/-- The error of the broadcast. -/
def abortError (reason : Option JsString) (stack : JsValue) : Thrown :=
  let name := ascii "AbortError".toList
  let message := reason.getD (ascii "shutdown".toList)
  .error {
    name := .string name
    message := .string message
    stack := stack
    eddyqKind := .undefined
    eddyqDelayMs := .undefined
    text := if message = [] then name else name ++ ascii ": ".toList ++ message }

/-- The callback. -/
def broadcast (reason : Option JsString) (stack : JsValue) (q : Queue) : Queue :=
  let s := stateFor q
  let err := abortError reason stack
  { q with
    instanceState := some { s with abortedWith := some err }
    signals := s.controllers.foldl (abort err) q.signals }

/-- What happens on the queue. -/
inductive Action
  | work (kind : JsString) (accepted : Bool)
  | dispatch (kind : JsString) (start : Start)
  | settle (i : Nat) (result : Except Thrown JsValue)
  | resume (i : Nat)
  | broadcast (reason : Option JsString) (stack : JsValue)

def Action.Broadcasts : Action → Prop
  | .broadcast _ _ => True
  | _ => False

/-- When it can: a handler is called for its kind, settles once, its wrapper goes on after that, and the native side broadcasts only
through the callback. -/
def Action.ok (q : Queue) : Action → Prop
  | .work _ _ => True
  | .dispatch kind _ => kind ∈ q.handlers
  | .settle i _ => ∃ c, q.calls[i]? = some (.running c)
  | .resume i => ∃ c result, q.calls[i]? = some (.settled c result)
  | .broadcast _ _ => q.abortHandler = true

def Action.run (q : Queue) : Action → Queue
  | .work kind accepted => Js.work kind accepted q
  | .dispatch _ start => Js.dispatch start q
  | .settle i result => Js.settle i result q
  | .resume i => Js.resume i q
  | .broadcast reason stack => Js.broadcast reason stack q

/-- One step. -/
abbrev Step : Queue → Action → Queue → Prop := Guarded Action.ok Action.run

/-! ## Calls of a list -/

section Calls

variable {l : List Call} {i c : Nat} {x y : Call}

theorem filterMap_set_same (hx : l[i]? = some x) (hy : y.controller = x.controller) :
    (l.set i y).filterMap Call.controller = l.filterMap Call.controller := by
  induction l generalizing i with
  | nil => rfl
  | cons a l ih =>
    cases i with
    | zero =>
      cases hx
      rw [List.set_cons_zero, List.filterMap_cons, List.filterMap_cons, hy]
    | succ i =>
      rw [List.set_cons_succ, List.filterMap_cons, List.filterMap_cons, ih hx]

theorem filterMap_set_none (hx : l[i]? = some x) (hc : x.controller = some c) (hy : y.controller = none)
    (hnd : (l.filterMap Call.controller).Nodup) :
    (l.set i y).filterMap Call.controller = (l.filterMap Call.controller).erase c := by
  induction l generalizing i with
  | nil => cases hx
  | cons a l ih =>
    cases i with
    | zero =>
      cases hx
      rw [List.set_cons_zero, List.filterMap_cons, List.filterMap_cons, hy, hc]
      simp
    | succ i =>
      have hmem : c ∈ l.filterMap Call.controller := List.mem_filterMap.mpr ⟨x, List.mem_of_getElem? hx, hc⟩
      rw [List.set_cons_succ, List.filterMap_cons, List.filterMap_cons]
      rw [List.filterMap_cons] at hnd
      cases ha : a.controller with
      | none =>
        rw [ha] at hnd
        exact ih hx hnd
      | some d =>
        rw [ha] at hnd
        obtain ⟨hd, hnd⟩ := List.nodup_cons.mp hnd
        have hne : d ≠ c := fun heq => hd (heq ▸ hmem)
        dsimp only
        rw [ih hx hnd, List.erase_cons_tail (by simpa using hne)]

end Calls

/-- What the loop of the broadcast leaves. -/
theorem foldl_abort (err : Thrown) : ∀ (l : List Nat) (signals : Nat → Option Thrown) (c : Nat),
    l.foldl (abort err) signals c = if c ∈ l then signals c <|> some err else signals c
  | [], _, _ => rfl
  | d :: l, signals, c => by
    rw [List.foldl_cons, foldl_abort err l]
    by_cases hcd : c = d
    · subst hcd
      have h : abort err signals c c = (signals c <|> some err) := Function.update_self ..
      rw [h, if_pos List.mem_cons_self]
      split
      · cases signals c <;> rfl
      · rfl
    · have h : abort err signals d c = signals c := Function.update_of_ne hcd ..
      simp [h, hcd]

/-! ## What every step keeps -/

/-- The controllers of the calls whose wrapper has not gone on. -/
def Queue.unfinished (q : Queue) : List Nat := q.calls.filterMap Call.controller

/-- **The set** is that of these calls, each once; without a broadcast no signal is aborted. -/
structure Kept (q : Queue) : Prop where
  controllers : (stateFor q).controllers = q.unfinished
  nodup : q.unfinished.Nodup
  fresh : ∀ c ∈ q.unfinished, c < q.created
  quiet : (stateFor q).abortedWith = none → ∀ c, q.signals c = none

section Steps

variable {q q' : Queue}

theorem stateFor_ensureAbortHandler : (stateFor (ensureAbortHandler q)).controllers = (stateFor q).controllers ∧
    (stateFor (ensureAbortHandler q)).abortedWith = (stateFor q).abortedWith := by
  unfold ensureAbortHandler
  dsimp only
  split <;> exact ⟨rfl, rfl⟩

theorem ensureAbortHandler_rest : (ensureAbortHandler q).calls = q.calls ∧ (ensureAbortHandler q).created = q.created ∧
    (ensureAbortHandler q).signals = q.signals := by
  unfold ensureAbortHandler
  dsimp only
  split <;> exact ⟨rfl, rfl, rfl⟩

/-- A registration changes nothing that the broadcast reads. -/
theorem work_frame (kind : JsString) (accepted : Bool) :
    (stateFor (work kind accepted q)).controllers = (stateFor q).controllers ∧
      (stateFor (work kind accepted q)).abortedWith = (stateFor q).abortedWith ∧ (work kind accepted q).calls = q.calls ∧
        (work kind accepted q).created = q.created ∧ (work kind accepted q).signals = q.signals := by
  obtain ⟨hset, hwith⟩ := stateFor_ensureAbortHandler (q := q)
  obtain ⟨hcalls, hcreated, hsignals⟩ := ensureAbortHandler_rest (q := q)
  cases accepted <;> exact ⟨hset, hwith, hcalls, hcreated, hsignals⟩

/-- The step of a call that is refused. -/
theorem dispatch_refused {err : Thrown} (h : (stateFor q).abortedWith = some err) (start : Start) :
    dispatch start q = { q with calls := q.calls ++ [.refused (rethrow err)] } := by
  rw [dispatch]
  dsimp only
  rw [h]

theorem Kept.work (h : Kept q) (kind : JsString) (accepted : Bool) : Kept (Js.work kind accepted q) := by
  obtain ⟨hset, hwith, hcalls, hcreated, hsignals⟩ := work_frame (q := q) kind accepted
  have hopen : (Js.work kind accepted q).unfinished = q.unfinished := by
    rw [Queue.unfinished, hcalls, Queue.unfinished]
  constructor
  · rw [hset, hopen]
    exact h.controllers
  · rw [hopen]
    exact h.nodup
  · rw [hopen, hcreated]
    exact h.fresh
  · rw [hwith, hsignals]
    exact h.quiet

/-- A call whose wrapper is already done. -/
theorem Kept.done (h : Kept q) {x : Call} (hx : x.controller = none) {s : InstanceState} {n : Nat}
    (hs : s.controllers = (stateFor q).controllers) (hwith : s.abortedWith = (stateFor q).abortedWith) (hn : q.created ≤ n) :
    Kept { q with instanceState := some s, calls := q.calls ++ [x], created := n } := by
  have hopen : (q.calls ++ [x]).filterMap Call.controller = q.unfinished := by
    rw [List.filterMap_append, List.filterMap_cons_none hx, List.filterMap_nil, List.append_nil]
    rfl
  refine ⟨?_, ?_, ?_, ?_⟩
  · exact (hs.trans h.controllers).trans hopen.symm
  · exact (congrArg List.Nodup hopen).mpr h.nodup
  · intro c hc
    exact lt_of_lt_of_le (h.fresh c (hopen ▸ hc)) hn
  · intro hnone
    exact h.quiet (hwith ▸ hnone)

/-- A call whose controller is new. -/
theorem Kept.start (h : Kept q) {x : Call} (hx : x.controller = some q.created) {s : InstanceState}
    (hs : s.controllers = (stateFor q).controllers ++ [q.created]) (hwith : s.abortedWith = (stateFor q).abortedWith) :
    Kept { q with instanceState := some s, calls := q.calls ++ [x], created := q.created + 1 } := by
  have hopen : (q.calls ++ [x]).filterMap Call.controller = q.unfinished ++ [q.created] := by
    rw [List.filterMap_append, List.filterMap_cons_some hx, List.filterMap_nil]
    rfl
  refine ⟨?_, ?_, ?_, ?_⟩
  · rw [h.controllers] at hs
    exact hs.trans hopen.symm
  · refine (congrArg List.Nodup hopen).mpr ?_
    refine List.nodup_append.mpr ⟨h.nodup, List.nodup_singleton _, fun c hc d hd heq => ?_⟩
    have hlt := h.fresh c hc
    rw [heq, List.mem_singleton.mp hd] at hlt
    exact absurd hlt (lt_irrefl _)
  · intro c hc
    have hc : c ∈ q.unfinished ++ [q.created] := hopen ▸ hc
    rcases List.mem_append.mp hc with hc | hc
    · exact Nat.lt_succ_of_lt (h.fresh c hc)
    · rw [List.mem_singleton.mp hc]
      exact Nat.lt_succ_self _
  · intro hnone
    exact h.quiet (hwith ▸ hnone)

theorem Kept.dispatch (h : Kept q) (start : Start) : Kept (Js.dispatch start q) := by
  cases hwith : (stateFor q).abortedWith with
  | some err =>
    rw [dispatch_refused hwith]
    have hnone : (Call.refused (rethrow err)).controller = none := rfl
    have hopen : (q.calls ++ [Call.refused (rethrow err)]).filterMap Call.controller = q.unfinished := by
      rw [List.filterMap_append, List.filterMap_cons_none hnone, List.filterMap_nil, List.append_nil]
      rfl
    exact ⟨h.controllers.trans hopen.symm, (congrArg List.Nodup hopen).mpr h.nodup, fun c hc => h.fresh c (hopen ▸ hc), h.quiet⟩
  | none =>
    rw [Js.dispatch]
    dsimp only
    rw [hwith]
    cases start with
    | throws e =>
      have hnew : q.created ∉ (stateFor q).controllers := fun hc => absurd (h.fresh _ (h.controllers ▸ hc)) (lt_irrefl _)
      refine h.done rfl ?_ hwith.symm (Nat.le_succ _)
      rw [List.erase_append_right _ hnew]
      simp
    | returns result => exact h.start rfl rfl hwith.symm
    | waits => exact h.start rfl rfl hwith.symm

theorem Kept.settle (h : Kept q) (i : Nat) (result : Except Thrown JsValue) : Kept (Js.settle i result q) := by
  rw [Js.settle]
  split
  · next c hc =>
    have hopen : (q.calls.set i (.settled c result)).filterMap Call.controller = q.unfinished := filterMap_set_same hc rfl
    exact ⟨h.controllers.trans hopen.symm, (congrArg List.Nodup hopen).mpr h.nodup, fun c hc => h.fresh c (hopen ▸ hc), h.quiet⟩
  · exact h

theorem Kept.resume (h : Kept q) (i : Nat) : Kept (Js.resume i q) := by
  rw [Js.resume]
  split
  · next c result hc =>
    have hopen : (q.calls.set i (.finished c (wrapHandler none result))).filterMap Call.controller = q.unfinished.erase c :=
      filterMap_set_none hc rfl rfl h.nodup
    refine ⟨?_, (congrArg List.Nodup hopen).mpr (h.nodup.erase c), fun d hd => ?_, h.quiet⟩
    · exact (congrArg (List.erase · c) h.controllers).trans hopen.symm
    · exact h.fresh d (List.mem_of_mem_erase ((congrArg (d ∈ ·) hopen).mp hd))
  · exact h

theorem Kept.broadcast (h : Kept q) (reason : Option JsString) (stack : JsValue) : Kept (Js.broadcast reason stack q) :=
  ⟨h.controllers, h.nodup, h.fresh, fun hnone => by cases hnone⟩

theorem Kept.step (h : Kept q) {a : Action} (hs : Step q a q') : Kept q' := by
  obtain ⟨-, rfl⟩ := hs
  cases a with
  | work kind accepted => exact h.work kind accepted
  | dispatch kind start => exact h.dispatch start
  | settle i result => exact h.settle i result
  | resume i => exact h.resume i
  | broadcast reason stack => exact h.broadcast reason stack

/-! ## Around the broadcast -/

/-- An aborted signal stays as it is. -/
theorem signals_step {a : Action} (hs : Step q a q') {c : Nat} {err : Thrown} (h : q.signals c = some err) :
    q'.signals c = some err := by
  obtain ⟨-, rfl⟩ := hs
  cases a with
  | work kind accepted =>
    obtain ⟨-, -, -, -, hsignals⟩ := work_frame (q := q) kind accepted
    exact (congrFun hsignals c).trans h
  | dispatch kind start =>
    change (dispatch start q).signals c = some err
    unfold dispatch
    dsimp only
    split
    · exact h
    · cases start <;> exact h
  | settle i result =>
    change (settle i result q).signals c = some err
    unfold settle
    split <;> exact h
  | resume i =>
    change (resume i q).signals c = some err
    unfold resume
    split <;> exact h
  | broadcast reason stack =>
    refine (foldl_abort (abortError reason stack) (stateFor q).controllers q.signals c).trans ?_
    rw [h]
    split <;> rfl

/-- Only the broadcast shuts the queue. -/
theorem abortedWith_step {a : Action} (hs : Step q a q') (ha : ¬ a.Broadcasts) :
    (stateFor q').abortedWith = (stateFor q).abortedWith := by
  obtain ⟨-, rfl⟩ := hs
  cases a with
  | work kind accepted => exact (work_frame (q := q) kind accepted).2.1
  | dispatch kind start =>
    cases hwith : (stateFor q).abortedWith with
    | some err =>
      change (stateFor (dispatch start q)).abortedWith = _
      rw [dispatch_refused hwith]
      exact hwith
    | none =>
      change (stateFor (dispatch start q)).abortedWith = _
      rw [dispatch]
      dsimp only
      rw [hwith]
      cases start <;> rfl
  | settle i result =>
    change (stateFor (settle i result q)).abortedWith = _
    unfold settle
    split <;> rfl
  | resume i =>
    change (stateFor (resume i q)).abortedWith = _
    unfold resume
    split <;> rfl
  | broadcast reason stack => exact absurd trivial ha

/-- Since the broadcast of `err`, when there were `n` calls, every call has been refused. -/
structure ShutDown (n : Nat) (err : Thrown) (q : Queue) : Prop where
  abortedWith : (stateFor q).abortedWith = some err
  length : n ≤ q.calls.length
  refused : ∀ i x, n ≤ i → q.calls[i]? = some x → x = .refused (rethrow err)

/-- A call that goes on is one from before. -/
theorem ShutDown.set {n i : Nat} {err : Thrown} (h : ShutDown n err q) {x : Call} (hx : q.calls[i]? = some x)
    (hne : x ≠ .refused (rethrow err)) (y : Call) {j : Nat} {z : Call} (hj : n ≤ j) (hz : (q.calls.set i y)[j]? = some z) :
    z = .refused (rethrow err) := by
  have hij : i ≠ j := by
    rintro rfl
    exact hne (h.refused i x hj hx)
  rw [List.getElem?_set_ne hij] at hz
  exact h.refused j z hj hz

theorem ShutDown.step {n : Nat} {err : Thrown} (h : ShutDown n err q) {a : Action} (hs : Step q a q') (ha : ¬ a.Broadcasts) :
    ShutDown n err q' := by
  have hwith := (abortedWith_step hs ha).trans h.abortedWith
  obtain ⟨hok, rfl⟩ := hs
  cases a with
  | work kind accepted =>
    obtain ⟨-, -, hcalls, -, -⟩ := work_frame (q := q) kind accepted
    refine ⟨hwith, ?_, ?_⟩
    · exact hcalls ▸ h.length
    · exact hcalls ▸ h.refused
  | dispatch kind start =>
    have hd : Action.run q (.dispatch kind start) = { q with calls := q.calls ++ [.refused (rethrow err)] } :=
      dispatch_refused h.abortedWith start
    rw [hd]
    refine ⟨h.abortedWith, ?_, fun i x hi hx => ?_⟩
    · rw [List.length_append]
      exact Nat.le_add_right_of_le h.length
    · rcases Nat.lt_or_ge i q.calls.length with hlt | hge
      · rw [List.getElem?_append_left hlt] at hx
        exact h.refused i x hi hx
      · rw [List.getElem?_append_right hge] at hx
        exact List.mem_singleton.mp (List.mem_of_getElem? hx)
  | settle i result =>
    obtain ⟨c, hc⟩ := hok
    have hrun : Action.run q (.settle i result) = { q with calls := q.calls.set i (.settled c result) } := by
      change settle i result q = _
      rw [settle, hc]
    rw [hrun] at hwith ⊢
    exact ⟨hwith, by rw [List.length_set]; exact h.length, fun j x hj hx => h.set hc nofun _ hj hx⟩
  | resume i =>
    obtain ⟨c, result, hc⟩ := hok
    have hrun : (Action.run q (.resume i)).calls = q.calls.set i (.finished c (wrapHandler none result)) := by
      change (resume i q).calls = _
      rw [resume, hc]
    refine ⟨hwith, ?_, ?_⟩
    · rw [hrun, List.length_set]
      exact h.length
    · rw [hrun]
      exact fun j x hj hx => h.set hc nofun _ hj hx
  | broadcast reason stack => exact absurd trivial ha

end Steps

/-! ## Runs -/

section Runs

variable {q q' : Queue} {as : List Action}

theorem kept_run (h : Run Step {} as q) : Kept q :=
  h.inv ⟨rfl, List.nodup_nil, nofun, fun _ _ => rfl⟩ fun _ _ _ hk hs => hk.step hs

theorem signals_run (h : Run Step q as q') {c : Nat} {err : Thrown} (hc : q.signals c = some err) :
    q'.signals c = some err :=
  h.inv hc fun _ _ _ hk hs => signals_step hs hk

theorem not_broadcasts_snoc {a : Action} (h : ∀ b ∈ as ++ [a], ¬ b.Broadcasts) :
    (∀ b ∈ as, ¬ b.Broadcasts) ∧ ¬ a.Broadcasts :=
  ⟨fun b hb => h b (List.mem_append_left _ hb), h a (List.mem_append_right _ (List.mem_singleton_self a))⟩

/-- Before the broadcast. -/
theorem open_run (h : Run Step q as q') (hno : ∀ a ∈ as, ¬ a.Broadcasts) :
    (stateFor q').abortedWith = (stateFor q).abortedWith := by
  induction h with
  | nil => rfl
  | snoc a _ hs ih =>
    obtain ⟨hno, ha⟩ := not_broadcasts_snoc hno
    exact (abortedWith_step hs ha).trans (ih hno)

/-- After it. -/
theorem shutDown_run {n : Nat} {err : Thrown} (h : Run Step q as q') (hno : ∀ a ∈ as, ¬ a.Broadcasts)
    (hq : ShutDown n err q) : ShutDown n err q' := by
  induction h with
  | nil => exact hq
  | snoc a _ hs ih =>
    obtain ⟨hno, ha⟩ := not_broadcasts_snoc hno
    exact (ih hno).step hs ha

/-- Every handler has settled. -/
def Queue.HandlersSettled (q : Queue) : Prop := ∀ x ∈ q.calls, ∀ c, x ≠ .running c

/-- One that has settled goes on. -/
theorem resume_settled {i c : Nat} {result : Except Thrown JsValue} (hk : Kept q)
    (hx : q.calls[i]? = some (.settled c result)) (hall : q.HandlersSettled) :
    (resume i q).unfinished.length < q.unfinished.length ∧ (resume i q).HandlersSettled := by
  have hcalls : (resume i q).calls = q.calls.set i (.finished c (wrapHandler none result)) := by
    rw [resume, hx]
  constructor
  · have hmem : c ∈ q.unfinished := List.mem_filterMap.mpr ⟨_, List.mem_of_getElem? hx, rfl⟩
    have hpos := List.length_pos_of_mem hmem
    have hset : (resume i q).unfinished = q.unfinished.erase c := by
      rw [Queue.unfinished, hcalls]
      exact filterMap_set_none hx rfl rfl hk.nodup
    rw [hset, List.length_erase_of_mem hmem]
    omega
  · intro x hmem d
    rw [hcalls] at hmem
    rcases List.mem_or_eq_of_mem_set hmem with hmem | rfl
    · exact hall x hmem d
    · exact nofun

/-- **The wrappers empty the set**: when every handler has settled, what is left to run are the wrappers after their `await`, and
when they have run the set is empty. -/
theorem drains (n : Nat) : ∀ {q : Queue}, Kept q → q.HandlersSettled → q.unfinished.length ≤ n →
    ∃ as q', Run Step q as q' ∧ (∀ a ∈ as, ∃ i, a = .resume i) ∧ (stateFor q').controllers = [] := by
  induction n with
  | zero =>
    intro q hk _ hn
    exact ⟨[], q, .nil, fun _ ha => absurd ha List.not_mem_nil, hk.controllers.trans (List.eq_nil_of_length_eq_zero (Nat.le_zero.mp hn))⟩
  | succ n ih =>
    intro q hk hall hn
    cases hopen : q.unfinished with
    | nil => exact ⟨[], q, .nil, fun _ ha => absurd ha List.not_mem_nil, hk.controllers.trans hopen⟩
    | cons c l =>
      have hmem : c ∈ q.unfinished := hopen ▸ List.mem_cons_self
      obtain ⟨x, hx, hc⟩ := List.mem_filterMap.mp hmem
      obtain ⟨i, hi⟩ := List.getElem?_of_mem hx
      cases x with
      | refused _ => cases hc
      | finished _ _ => cases hc
      | running d => exact absurd rfl (hall _ hx d)
      | settled d result =>
        obtain ⟨hlt, hall'⟩ := resume_settled hk hi hall
        obtain ⟨as, q', hrun, has, hq'⟩ := ih (hk.resume i) hall' (by omega)
        have hstep : Step q (.resume i) (resume i q) := ⟨⟨d, result, hi⟩, rfl⟩
        refine ⟨.resume i :: as, q', hrun.cons hstep, fun a ha => ?_, hq'⟩
        rcases List.mem_cons.mp ha with rfl | ha
        · exact ⟨i, rfl⟩
        · exact has a ha

/-- **Shutdown reaches every handler**: the broadcast aborts the signal of every call whose wrapper has not gone on, and they stay
aborted; every later call is rejected with the envelope of an `AbortError` instead of calling its handler; and when all handlers have
settled, the wrappers that are left empty the set. -/
theorem shutdown_reaches {as₁ as₂ : List Action} {q₁ q₂ q₃ : Queue} {reason : Option JsString} {stack : JsValue}
    (h₁ : Run Step {} as₁ q₁) (hno₁ : ∀ a ∈ as₁, ¬ a.Broadcasts) (hb : Step q₁ (.broadcast reason stack) q₂)
    (h₂ : Run Step q₂ as₂ q₃) (hno₂ : ∀ a ∈ as₂, ¬ a.Broadcasts) :
    (∀ x ∈ q₁.calls, ∀ c, x.controller = some c →
      q₂.signals c = some (abortError reason stack) ∧ q₃.signals c = some (abortError reason stack)) ∧
    (∀ i x, q₁.calls.length ≤ i → q₃.calls[i]? = some x →
      ∃ e : Envelope, e.name = .string (ascii "AbortError".toList) ∧ x = .refused (envelopePrefix ++ e.stringify)) ∧
    (q₃.HandlersSettled → ∃ as q, Run Step q₃ as q ∧ (∀ a ∈ as, ∃ i, a = .resume i) ∧ (stateFor q).controllers = []) ∧
    ((∀ x ∈ q₃.calls, x.controller = none) → (stateFor q₃).controllers = []) := by
  have hk₁ := kept_run h₁
  have hopen : (stateFor q₁).abortedWith = none := open_run h₁ hno₁
  have hk₃ : Kept q₃ := h₂.inv (hk₁.step hb) fun _ _ _ hk hs => hk.step hs
  obtain ⟨-, rfl⟩ := hb
  refine ⟨fun x hx c hc => ?_, fun i x hi hx => ?_, fun hall => drains _ hk₃ hall le_rfl, fun hall => ?_⟩
  · have hmem : c ∈ (stateFor q₁).controllers := hk₁.controllers ▸ List.mem_filterMap.mpr ⟨x, hx, hc⟩
    have habort : (Action.run q₁ (.broadcast reason stack)).signals c = some (abortError reason stack) := by
      refine (foldl_abort (abortError reason stack) (stateFor q₁).controllers q₁.signals c).trans ?_
      rw [if_pos hmem, hk₁.quiet hopen c]
      rfl
    exact ⟨habort, signals_run h₂ habort⟩
  · have hdown : ShutDown q₁.calls.length (abortError reason stack) (Action.run q₁ (.broadcast reason stack)) :=
      ⟨rfl, le_rfl, fun j y hj hy => by
        have hnone : q₁.calls[j]? = none := List.getElem?_eq_none hj
        cases hnone.symm.trans hy⟩
    have hx := (shutDown_run h₂ hno₂ hdown).refused i x hi hx
    exact ⟨formatError (abortError reason stack), rfl, hx⟩
  · rw [hk₃.controllers]
    exact List.filterMap_eq_nil_iff.mpr hall

/-- A handler that waits when the broadcast comes. -/
theorem shutdown_reaches_waiting : (broadcast none .undefined (dispatch .waits (work [] true {}))).signals 0 =
    some (abortError none .undefined) := by
  have hrun : Run Step {} [.work [] true, .dispatch [] .waits] (dispatch .waits (work [] true {})) :=
    .snoc (R := Step) (Action.dispatch [] .waits) (.snoc (R := Step) (Action.work [] true) .nil ⟨trivial, rfl⟩) ⟨List.mem_singleton_self _, rfl⟩
  have hno : ∀ a ∈ [Action.work [] true, .dispatch [] .waits], ¬ a.Broadcasts := by
    intro a ha
    rcases List.mem_pair.mp ha with rfl | rfl <;> exact nofun
  exact ((shutdown_reaches hrun hno ⟨rfl, rfl⟩ .nil fun _ ha => absurd ha List.not_mem_nil).1 (.running 0) (List.mem_singleton_self _) 0 rfl).1

end Runs

end Eddyq.Js
