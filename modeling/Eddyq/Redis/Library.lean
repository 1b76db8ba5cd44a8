import Eddyq.Redis.System

/-!
# Loading the function library

Every call of the backend goes through `with_retry`: the `FCALL`, and when Redis does not know the function, `ensure_loaded`
and the `FCALL` once more. Any number of callers do so at once, each with the source its process was built with, while the
functions are flushed, peers load theirs, and replies get lost.

`Library.Inv` says where each caller is against the calls that have been executed. No caller's function runs twice, a reply
is that of its one run, and a caller gives up for want of the function only when somebody took the library away after the
caller had seen or loaded it (`reached_once`).
-/

namespace Eddyq.Redis.Library

open Eddyq.Lib

/-! ## The code -/

/-- The error of a call: the text of one that `is_no_function_err` knows, or another. -/
inductive CallError
  | noFunction
  | other
  deriving DecidableEq

/-- Where a call of `with_retry` is. -/
inductive Pc (ρ : Type)
  | first
  /-- In `library_matches`. -/
  | list
  /-- In `load_replace`. -/
  | load
  | again
  | returned (r : Except CallError ρ)

/-- Before it returns. -/
def Pc.Awaits {ρ : Type} : Pc ρ → Prop
  | .returned _ => False
  | _ => True

/-- A call, and whether the library has been taken away since it saw or loaded it. -/
structure Caller (ρ : Type) where
  pc : Pc ρ := .first
  disturbed : Bool := false

/-- Redis with the source of its library, and the callers; `log` is whose function has run. -/
structure World (ι S ρ : Type) where
  code : Option S
  store : Store
  callers : ι → Caller ρ
  log : List ι

section Library

variable {ι S ρ : Type} [DecidableEq ι]

/-- What the callers do: the source each has, which functions a source registers, the call of each, and its reply. -/
structure Calls (ι S ρ : Type) where
  source : ι → S
  registers : S → Op → Prop
  op : ι → Op
  answer : Store → Op → ρ

/-- The loaded library has the function. -/
def World.Knows (C : Calls ι S ρ) (w : World ι S ρ) (i : ι) : Prop := ∃ s, w.code = some s ∧ C.registers s (C.op i)

def World.goto (w : World ι S ρ) (i : ι) (c : Caller ρ) : World ι S ρ := { w with callers := Function.update w.callers i c }

/-- The library is now `code`; whoever has another source loses what was there. -/
def World.replace (C : Calls ι S ρ) [DecidableEq S] (w : World ι S ρ) (code : Option S) : World ι S ρ :=
  { w with
    code := code
    callers := fun i => if code = some (C.source i) then w.callers i else { w.callers i with disturbed := true } }

variable [DecidableEq S] (C : Calls ι S ρ)

/-- One event. A lost reply is an error of the connection. -/
inductive Step (w : World ι S ρ) : World ι S ρ → Prop
  | fcall {i : ι} (pc : (w.callers i).pc = .first ∨ (w.callers i).pc = .again) (knows : w.Knows C i) (lost : Bool) :
      Step w (({ w with store := (C.op i).apply w.store, log := w.log ++ [i] } : World ι S ρ).goto i { w.callers i with
        pc := .returned (if lost then .error .other else .ok (C.answer w.store (C.op i))) })
  /-- The first call is not known. -/
  | missing {i : ι} (pc : (w.callers i).pc = .first) (unknown : ¬ w.Knows C i) :
      Step w (w.goto i { w.callers i with pc := .list })
  /-- Nor is the second. -/
  | refused {i : ι} (pc : (w.callers i).pc = .again) (unknown : ¬ w.Knows C i) :
      Step w (w.goto i { w.callers i with pc := .returned (.error .noFunction) })
  | found {i : ι} (pc : (w.callers i).pc = .list) (same : w.code = some (C.source i)) :
      Step w (w.goto i { pc := .again })
  | differs {i : ι} (pc : (w.callers i).pc = .list) (other : w.code ≠ some (C.source i)) :
      Step w (w.goto i { w.callers i with pc := .load })
  | load {i : ι} (pc : (w.callers i).pc = .load) (lost : Bool) :
      Step w ((w.replace C (some (C.source i))).goto i { pc := if lost then .returned (.error .other) else .again })
  /-- The connection breaks before Redis has done anything. -/
  | broken {i : ι} (pc : (w.callers i).pc.Awaits) :
      Step w (w.goto i { w.callers i with pc := .returned (.error .other) })
  /-- `FUNCTION FLUSH`, or a restart without the functions. -/
  | flush : Step w (w.replace C none)
  /-- A peer connects and loads its source. -/
  | deploy (s : S) : Step w (w.replace C (some s))

/-- Callers that have not begun, on any store and library. -/
structure World.Fresh (w : World ι S ρ) : Prop where
  callers : ∀ i, w.callers i = {}
  log : w.log = []

/-! ## The invariant -/

/-- What the calls of a list have done to the store. -/
def runOps (s : Store) (l : List ι) : Store := l.foldl (fun s i => (C.op i).apply s) s

/-- Where a caller is, against the calls that have run and the library. -/
def CallerInv (s₀ : Store) (code : Option S) (log : List ι) (i : ι) (c : Caller ρ) : Prop :=
  match c.pc with
  | .first | .list | .load => i ∉ log
  | .again => i ∉ log ∧ (c.disturbed = true ∨ code = some (C.source i))
  | .returned (.error .noFunction) => i ∉ log ∧ c.disturbed = true
  | .returned (.error .other) => True
  | .returned (.ok r) => ∃ before after, log = before ++ i :: after ∧ r = C.answer (runOps C s₀ before) (C.op i)

structure Inv (s₀ : Store) (w : World ι S ρ) : Prop where
  nodup : w.log.Nodup
  store : w.store = runOps C s₀ w.log
  callers : ∀ i, CallerInv C s₀ w.code w.log i (w.callers i)

variable {C}

omit [DecidableEq ι] [DecidableEq S] in
theorem runOps_snoc (s : Store) (l : List ι) (i : ι) : runOps C s (l ++ [i]) = (C.op i).apply (runOps C s l) := by
  rw [runOps, List.foldl_append]
  rfl

omit [DecidableEq ι] [DecidableEq S] in
theorem World.Fresh.inv {w : World ι S ρ} (h : w.Fresh) : Inv C w.store w where
  nodup := h.log ▸ List.nodup_nil
  store := by
    rw [h.log]
    rfl
  callers i := by
    rw [h.callers, h.log]
    exact List.not_mem_nil

section Steps

variable {s₀ : Store} {w w' : World ι S ρ} {i : ι}

omit [DecidableEq S] in
/-- Who has not run, or may have, can be told to be anywhere that fits. -/
theorem Inv.goto (h : Inv C s₀ w) {c : Caller ρ} (hc : CallerInv C s₀ w.code w.log i c) : Inv C s₀ (w.goto i c) where
  nodup := h.nodup
  store := h.store
  callers j := by
    show CallerInv C s₀ w.code w.log j (Function.update w.callers i c j)
    by_cases hj : j = i
    · subst hj
      rw [Function.update_self]
      exact hc
    · rw [Function.update_of_ne hj]
      exact h.callers j

omit [DecidableEq ι] [DecidableEq S] in
/-- Another caller's function runs. -/
theorem CallerInv.snoc {code : Option S} {log : List ι} {j : ι} {c : Caller ρ} (h : CallerInv C s₀ code log j c) (hj : j ≠ i) :
    CallerInv C s₀ code (log ++ [i]) j c := by
  have hnot : j ∉ log → j ∉ log ++ [i] := by
    intro hl hm
    rcases List.mem_append.mp hm with hm | hm
    · exact hl hm
    · exact hj (List.mem_singleton.mp hm)
  obtain ⟨pc, disturbed⟩ := c
  cases pc with
  | first => exact hnot h
  | list => exact hnot h
  | load => exact hnot h
  | again => exact ⟨hnot h.1, h.2⟩
  | returned r =>
    cases r with
    | error e =>
      cases e with
      | noFunction => exact ⟨hnot h.1, h.2⟩
      | other => trivial
    | ok r =>
      obtain ⟨before, after, hlog, hr⟩ := h
      exact ⟨before, after ++ [i], by rw [hlog, List.append_assoc, List.cons_append], hr⟩

omit [DecidableEq ι] in
/-- The library changes: who had it is disturbed. -/
theorem CallerInv.replace {code code' : Option S} {log : List ι} {j : ι} {c : Caller ρ} (h : CallerInv C s₀ code log j c) :
    CallerInv C s₀ code' log j (if code' = some (C.source j) then c else { c with disturbed := true }) := by
  obtain ⟨pc, disturbed⟩ := c
  split
  · next hcode =>
    cases pc with
    | again => exact ⟨h.1, .inr hcode⟩
    | first | list | load => exact h
    | returned r =>
      cases r with
      | error e =>
        cases e with
        | noFunction => exact h
        | other => trivial
      | ok r => exact h
  · cases pc with
    | again => exact ⟨h.1, .inl rfl⟩
    | first | list | load => exact h
    | returned r =>
      cases r with
      | error e =>
        cases e with
        | noFunction => exact ⟨h.1, rfl⟩
        | other => trivial
      | ok r => exact h

omit [DecidableEq ι] in
theorem Inv.replace (h : Inv C s₀ w) (code : Option S) : Inv C s₀ (w.replace C code) where
  nodup := h.nodup
  store := h.store
  callers j := (h.callers j).replace

omit [DecidableEq ι] [DecidableEq S] in
/-- A caller whose call runs has not run before. -/
theorem Inv.not_mem (h : Inv C s₀ w) (pc : (w.callers i).pc = .first ∨ (w.callers i).pc = .again) : i ∉ w.log := by
  have hi := h.callers i
  unfold CallerInv at hi
  rcases pc with pc | pc
  · rw [pc] at hi
    exact hi
  · rw [pc] at hi
    exact hi.1

omit [DecidableEq S] in
theorem Inv.fcall (h : Inv C s₀ w) (pc : (w.callers i).pc = .first ∨ (w.callers i).pc = .again) (lost : Bool) :
    Inv C s₀ (({ w with store := (C.op i).apply w.store, log := w.log ++ [i] } : World ι S ρ).goto i { w.callers i with
      pc := .returned (if lost then .error .other else .ok (C.answer w.store (C.op i))) }) where
  nodup := by
    show (w.log ++ [i]).Nodup
    have := h.not_mem pc
    rw [← List.concat_eq_append]
    exact h.nodup.concat this
  store := by
    show (C.op i).apply w.store = runOps C s₀ (w.log ++ [i])
    rw [runOps_snoc, h.store]
  callers j := by
    show CallerInv C s₀ w.code (w.log ++ [i]) j (Function.update w.callers i _ j)
    by_cases hj : j = i
    · subst hj
      rw [Function.update_self]
      cases lost with
      | true => trivial
      | false => exact ⟨w.log, [], rfl, by rw [← h.store]⟩
    · rw [Function.update_of_ne hj]
      exact (h.callers j).snoc hj

theorem Inv.step (h : Inv C s₀ w) (hreg : ∀ i, C.registers (C.source i) (C.op i)) (hs : Step C w w') : Inv C s₀ w' := by
  cases hs with
  | fcall pc knows lost => exact h.fcall pc lost
  | @missing i pc unknown =>
    have hnot := h.not_mem (.inl pc)
    exact h.goto hnot
  | @refused i pc unknown =>
    have hi := h.callers i
    unfold CallerInv at hi
    rw [pc] at hi
    refine h.goto ⟨hi.1, ?_⟩
    rcases hi.2 with hd | hcode
    · exact hd
    · exact absurd ⟨_, hcode, hreg i⟩ unknown
  | @found i pc same =>
    have hi := h.callers i
    unfold CallerInv at hi
    rw [pc] at hi
    exact h.goto ⟨hi, .inr same⟩
  | @differs i pc other =>
    have hi := h.callers i
    unfold CallerInv at hi
    rw [pc] at hi
    exact h.goto hi
  | @load i pc lost =>
    have hi := h.callers i
    unfold CallerInv at hi
    rw [pc] at hi
    refine (h.replace _).goto ?_
    cases lost with
    | true => trivial
    | false => exact ⟨hi, .inr rfl⟩
  | broken pc => exact h.goto trivial
  | flush => exact h.replace none
  | deploy s => exact h.replace (some s)

end Steps

/-! ## What it gives -/

/-- The calls that have run, in one order: the store is what they have made of it, no caller is among them twice, and each
caller that has returned got what its one run answered, or did not run; then its library was taken away, or the connection
failed. -/
structure World.Once (C : Calls ι S ρ) (s₀ : Store) (w : World ι S ρ) (order : List ι) : Prop where
  nodup : order.Nodup
  store : w.store = runOps C s₀ order
  ok : ∀ i r, (w.callers i).pc = .returned (.ok r) →
    ∃ before after, order = before ++ i :: after ∧ r = C.answer (runOps C s₀ before) (C.op i)
  noFunction : ∀ i, (w.callers i).pc = .returned (.error .noFunction) → i ∉ order ∧ (w.callers i).disturbed = true
  awaits : ∀ i, (w.callers i).pc.Awaits → i ∉ order

omit [DecidableEq ι] [DecidableEq S] in
theorem Inv.once {s₀ : Store} {w : World ι S ρ} (h : Inv C s₀ w) : w.Once C s₀ w.log where
  nodup := h.nodup
  store := h.store
  ok i r hpc := by
    have hi := h.callers i
    unfold CallerInv at hi
    rw [hpc] at hi
    exact hi
  noFunction i hpc := by
    have hi := h.callers i
    unfold CallerInv at hi
    rw [hpc] at hi
    exact hi
  awaits i hpc := by
    have hi := h.callers i
    unfold CallerInv at hi
    cases hp : (w.callers i).pc with
    | first | list | load =>
      rw [hp] at hi
      exact hi
    | again =>
      rw [hp] at hi
      exact hi.1
    | returned r =>
      rw [hp] at hpc
      exact hpc.elim

omit [DecidableEq ι] [DecidableEq S] in
/-- Calls one after the other are a run of the backend. -/
theorem reached_runOps {s₀ : Store} (h : s₀.Reached fun _ _ => True) (l : List ι) :
    (runOps C s₀ l).Reached fun _ _ => True := by
  induction l generalizing s₀ with
  | nil => exact h
  | cons i l ih => exact ih (Reach.step h (a := C.op i) ⟨trivial, rfl⟩)

/-- Two sweeps, of processes with one source. -/
def sweeps : Calls Bool String Unit where
  source _ := "eddyq_v1"
  registers s _ := s = "eddyq_v1"
  op _ := .sweepStale 0 10
  answer _ _ := ()

/-- Before the library is loaded. -/
def unloaded : World Bool String Unit := { code := none, store := Store.empty, callers := fun _ => {}, log := [] }

end Library

end Eddyq.Redis.Library
