import Eddyq.Lib.Rows
import Eddyq.Lib.Runs
import Mathlib.Data.List.Nodup

/-!
# Leases

A lessor hands out jobs to workers and takes their verdicts. Every claim starts an execution, which makes its verdict
later or never; in between the lessor may take the job back and hand it out again. `Leased` is a store together with the
claims: which executions are unfinished, which claim holds a running job, and which execution ended which claim.

The verdicts of a lessor are gated by something it remembers about a job and a worker. `Fence` collects what the gate
has to do with the calls, and `Fence.fenced` concludes for every run that meets the guard: an execution that has lost its
claim changes nothing, and every claim is ended at most once and by the execution it started.
-/

namespace Eddyq.Lib

/-- A store that hands out jobs (`grants`, with the worker each is handed to) and takes verdicts on them. -/
structure Lessor (σ α ν J W : Type) where
  call : σ → α → σ
  grants : σ → α → List (J × W)
  judge : σ → J → W → ν → σ
  running : σ → J → Bool

/-- An execution, with the number of the claim that started it. -/
structure Exec (J W : Type) where
  job : J
  worker : W
  claim : Nat
  deriving DecidableEq

/-- A store and its claims. -/
structure Leased (σ J W : Type) where
  store : σ
  claims : Nat := 0
  execs : List (Exec J W) := []
  holder : J → Option Nat := fun _ => none
  /-- Which claim was ended by which execution. -/
  ended : List (Option Nat × Nat) := []

/-- What happens: a call, or the verdict of the execution of a claim. -/
inductive Act (α ν : Type)
  | call (a : α)
  | verdict (claim : Nat) (v : ν)

section Lessor

variable {σ α ν J W : Type} (M : Lessor σ α ν J W)

/-- Number the grants of a call. -/
def Lessor.started (z : Leased σ J W) (a : α) : List (Exec J W) :=
  ((M.grants z.store a).zipIdx z.claims).map (fun g => ⟨g.1.1, g.1.2, g.2⟩)

variable {M} in
theorem mem_started {z : Leased σ J W} {a : α} {x : Exec J W} (h : x ∈ M.started z a) :
    (x.job, x.worker) ∈ M.grants z.store a ∧ z.claims ≤ x.claim ∧ x.claim < z.claims + (M.grants z.store a).length := by
  obtain ⟨⟨g, n⟩, hg, rfl⟩ := List.mem_map.mp h
  obtain ⟨hle, hlt, hget⟩ := List.mem_zipIdx hg
  refine ⟨?_, hle, hlt⟩
  rw [hget]
  exact List.getElem_mem _

theorem started_jobs (z : Leased σ J W) (a : α) : (M.started z a).map (·.job) = (M.grants z.store a).map Prod.fst := by
  rw [Lessor.started, List.map_map]
  exact (List.map_map (f := Prod.fst) (g := Prod.fst)).symm.trans (by rw [List.zipIdx_map_fst])

theorem started_claims (z : Leased σ J W) (a : α) : ((M.started z a).map (·.claim)).Nodup := by
  rw [Lessor.started, List.map_map]
  have h : ((M.grants z.store a).zipIdx z.claims).map Prod.snd = List.range' z.claims (M.grants z.store a).length :=
    List.zipIdx_map_snd _ _
  have hcomp : ((fun x : Exec J W => x.claim) ∘ fun g : (J × W) × Nat => ⟨g.1.1, g.1.2, g.2⟩) = Prod.snd := rfl
  rw [hcomp, h]
  exact List.nodup_range'

variable [DecidableEq J]

/-- A job is held by its last claim for as long as it runs. -/
def Lessor.held (s : σ) (new : List (Exec J W)) (holder : J → Option Nat) (j : J) : Option Nat :=
  if M.running s j then
    match new.find? (fun x => x.job = j) with
    | some x => some x.claim
    | none => holder j
  else none

/-- After a call. -/
def Lessor.called (z : Leased σ J W) (a : α) : Leased σ J W where
  store := M.call z.store a
  claims := z.claims + (M.grants z.store a).length
  execs := z.execs ++ M.started z a
  holder := M.held (M.call z.store a) (M.started z a) z.holder
  ended := z.ended

/-- After the verdict of an execution. It has ended a claim when the job was running and is no more. -/
def Lessor.judged (z : Leased σ J W) (x : Exec J W) (v : ν) : Leased σ J W where
  store := M.judge z.store x.job x.worker v
  claims := z.claims
  execs := z.execs.filter (fun y => y.claim ≠ x.claim)
  holder := M.held (M.judge z.store x.job x.worker v) [] z.holder
  ended := if M.running z.store x.job && !M.running (M.judge z.store x.job x.worker v) x.job then
    z.ended ++ [(z.holder x.job, x.claim)] else z.ended

/-- A call that meets the guard, or a verdict of an unfinished execution. -/
inductive Lessor.Step (ok : Leased σ J W → α → Prop) : Leased σ J W → Act α ν → Leased σ J W → Prop
  | call {z : Leased σ J W} (a : α) (hok : ok z a) : Lessor.Step ok z (.call a) (M.called z a)
  | verdict {z : Leased σ J W} (x : Exec J W) (hx : x ∈ z.execs) (v : ν) :
      Lessor.Step ok z (.verdict x.claim v) (M.judged z x v)

/-- Run an act; the verdict of a finished execution is none. -/
def Lessor.act (z : Leased σ J W) : Act α ν → Leased σ J W
  | .call a => M.called z a
  | .verdict c v => match z.execs.find? (fun x => x.claim = c) with
    | some x => M.judged z x v
    | none => z

/-- Each act is a step. -/
def Lessor.Acts (ok : Leased σ J W → α → Prop) : Leased σ J W → List (Act α ν) → Prop
  | _, [] => True
  | z, .call a :: as => ok z a ∧ Lessor.Acts ok (M.act z (.call a)) as
  | z, .verdict c v :: as => (z.execs.find? (fun x => x.claim = c)).isSome ∧ Lessor.Acts ok (M.act z (.verdict c v)) as

theorem Lessor.reach_of_acts {ok : Leased σ J W → α → Prop} {z₀ : Leased σ J W} : ∀ (as : List (Act α ν))
    {z : Leased σ J W}, Reach (M.Step ok) z₀ z → M.Acts ok z as → Reach (M.Step ok) z₀ (as.foldl M.act z)
  | [], _, h, _ => h
  | .call a :: as, _, h, hg => Lessor.reach_of_acts as (h.step (.call a hg.1)) hg.2
  | .verdict c v :: as, z, h, hg => by
    obtain ⟨x, hx⟩ := Option.isSome_iff_exists.mp hg.1
    have hc : x.claim = c := by simpa using List.find?_some hx
    have hact : M.act z (.verdict c v) = M.judged z x v := by
      rw [Lessor.act, hx]
    have hstep : M.Step ok z (.verdict c v) (M.act z (.verdict c v)) := by
      rw [hact, ← hc]
      exact .verdict x (List.mem_of_find?_eq_some hx) v
    exact Lessor.reach_of_acts as (h.step hstep) hg.2

/-- **Fencing.** An execution that has lost its claim changes nothing; a claim is ended by the execution it started, and
only once. -/
structure Lessor.Fenced (z : Leased σ J W) : Prop where
  stale : ∀ x ∈ z.execs, z.holder x.job ≠ some x.claim → ∀ v, M.judge z.store x.job x.worker v = z.store
  own : ∀ e ∈ z.ended, e.1 = some e.2
  once : (z.ended.map Prod.fst).Nodup

/-! ## The rule -/

/-- What the gate of a lessor has to do with its calls, on stores that meet `P`. A call is `safe` for a job and a worker
when it does not end the job's run and leave the gate open. -/
structure Fence (P : σ → Prop) (gate : σ → J → W → Prop) (may : α → Prop) (safe : σ → α → J → W → Prop) : Prop where
  call_inv : ∀ {s a}, P s → may a → P (M.call s a)
  judge_inv : ∀ {s j w} v, P s → (gate s j w → M.running s j) → P (M.judge s j w v)
  shut : ∀ {s j w} v, P s → ¬ gate s j w → M.judge s j w v = s
  one : ∀ {s j w w'}, P s → gate s j w → gate s j w' → w = w'
  distinct : ∀ {s} a, P s → ((M.grants s a).map Prod.fst).Nodup
  granted : ∀ {s a j w}, P s → (j, w) ∈ M.grants s a → M.running (M.call s a) j ∧ gate (M.call s a) j w
  kept : ∀ {s a j w}, P s → may a → safe s a j w → (j, w) ∉ M.grants s a → gate (M.call s a) j w →
    gate s j w ∧ (M.running s j → M.running (M.call s a) j)
  judged : ∀ {s j w j' w'} v, P s → (gate s j w → M.running s j) → gate (M.judge s j w v) j' w' →
    gate s j' w' ∧ (j' ≠ j → M.running s j' → M.running (M.judge s j w v) j')

/-- The guard: a call does not hand a job to a worker that has an unfinished execution of it, and is safe for the
executions that are unfinished. -/
def Lessor.Careful (may : α → Prop) (safe : σ → α → J → W → Prop) (z : Leased σ J W) (a : α) : Prop :=
  may a ∧ ∀ x ∈ z.execs, (x.job, x.worker) ∉ M.grants z.store a ∧ safe z.store a x.job x.worker

/-- The invariant: an execution for which the gate is open holds its job. -/
structure Fence.Inv (P : σ → Prop) (gate : σ → J → W → Prop) (z : Leased σ J W) : Prop where
  store : P z.store
  holds : ∀ x ∈ z.execs, gate z.store x.job x.worker → M.running z.store x.job ∧ z.holder x.job = some x.claim
  lone : ∀ x ∈ z.execs, ∀ y ∈ z.execs, x.job = y.job → x.worker = y.worker → x = y
  fresh : ∀ x ∈ z.execs, x.claim < z.claims
  claims : (z.execs.map (·.claim)).Nodup
  own : ∀ e ∈ z.ended, e.1 = some e.2
  past : ∀ e ∈ z.ended, e.2 < z.claims ∧ e.2 ∉ z.execs.map (·.claim)
  once : (z.ended.map Prod.fst).Nodup

variable {M} {P : σ → Prop} {gate : σ → J → W → Prop} {may : α → Prop} {safe : σ → α → J → W → Prop}

theorem held_running {s : σ} {new : List (Exec J W)} {holder : J → Option Nat} {j : J} {n : Nat}
    (hr : M.running s j) (hnew : ∀ x ∈ new, x.job ≠ j) (hh : holder j = some n) : M.held s new holder j = some n := by
  have hnone : new.find? (fun x => x.job = j) = none := by
    rw [List.find?_eq_none]
    exact fun x hx => by simpa using hnew x hx
  rw [Lessor.held, if_pos hr, hnone]
  exact hh

/-- A call keeps the invariant. -/
theorem Fence.Inv.called (hf : Fence M P gate may safe) {z : Leased σ J W} (h : Fence.Inv M P gate z) {a : α}
    (hc : M.Careful may safe z a) : Fence.Inv M P gate (M.called z a) := by
  obtain ⟨hmay, hcare⟩ := hc
  refine ⟨hf.call_inv h.store hmay, fun x hx hg => ?_, fun x hx y hy hj hw => ?_, fun x hx => ?_, ?_, h.own,
    fun e he => ?_, h.once⟩
  · rcases List.mem_append.mp hx with hx | hx
    · obtain ⟨hno, hs⟩ := hcare x hx
      obtain ⟨hg₀, hrun⟩ := hf.kept h.store hmay hs hno hg
      obtain ⟨hr, hh⟩ := h.holds x hx hg₀
      refine ⟨hrun hr, held_running (hrun hr) (fun y hy hyj => hno ?_) hh⟩
      -- the job was handed to the worker the gate names
      obtain ⟨hgr, _⟩ := mem_started hy
      have hyw : y.worker = x.worker := hf.one (hf.call_inv h.store hmay) (hf.granted h.store hgr).2 (hyj ▸ hg)
      rw [← hyj, ← hyw]
      exact hgr
    · obtain ⟨hgr, _⟩ := mem_started hx
      obtain ⟨hr, _⟩ := hf.granted h.store hgr
      have hn : ((M.started z a).map (·.job)).Nodup := by
        rw [started_jobs]
        exact hf.distinct a h.store
      refine ⟨hr, ?_⟩
      show M.held (M.call z.store a) (M.started z a) z.holder x.job = some x.claim
      rw [Lessor.held, if_pos hr, find?_of_nodup (g := Exec.job) hn hx]
  · rcases List.mem_append.mp hx with hx | hx <;> rcases List.mem_append.mp hy with hy | hy
    · exact h.lone x hx y hy hj hw
    · exact absurd (mem_started hy).1 (hj ▸ hw ▸ (hcare x hx).1)
    · exact absurd (mem_started hx).1 (hj ▸ hw ▸ (hcare y hy).1)
    · have hn : ((M.started z a).map (·.job)).Nodup := by
        rw [started_jobs]
        exact hf.distinct a h.store
      have hfx := find?_of_nodup (g := Exec.job) hn hx
      rw [hj, find?_of_nodup (g := Exec.job) hn hy, Option.some.injEq] at hfx
      exact hfx.symm
  · rcases List.mem_append.mp hx with hx | hx
    · exact Nat.lt_add_right _ (h.fresh x hx)
    · exact (mem_started hx).2.2
  · show ((z.execs ++ M.started z a).map (·.claim)).Nodup
    rw [List.map_append, List.nodup_append']
    refine ⟨h.claims, started_claims M z a, fun n hn hn' => ?_⟩
    obtain ⟨x, hx, rfl⟩ := List.mem_map.mp hn
    obtain ⟨y, hy, hyx⟩ := List.mem_map.mp hn'
    have hlt := h.fresh x hx
    have hle := (mem_started hy).2.1
    omega
  · obtain ⟨hlt, hno⟩ := h.past e he
    refine ⟨Nat.lt_add_right _ hlt, fun hm => ?_⟩
    obtain ⟨x, hx, hxe⟩ := List.mem_map.mp hm
    rcases List.mem_append.mp hx with hx | hx
    · exact hno (hxe ▸ List.mem_map_of_mem hx)
    · have hle := (mem_started hx).2.1
      omega

omit [DecidableEq J] in
/-- A verdict ends a claim only if it is that of the claim's execution. -/
theorem Fence.Inv.ends (hf : Fence M P gate may safe) {z : Leased σ J W} (h : Fence.Inv M P gate z) {x : Exec J W}
    (hx : x ∈ z.execs) {v : ν} (hend : M.judge z.store x.job x.worker v ≠ z.store) : z.holder x.job = some x.claim := by
  by_contra hh
  refine hend (hf.shut v h.store fun hg => hh (h.holds x hx hg).2)

/-- A verdict keeps the invariant. -/
theorem Fence.Inv.judged (hf : Fence M P gate may safe) {z : Leased σ J W} (h : Fence.Inv M P gate z) {x : Exec J W}
    (hx : x ∈ z.execs) (v : ν) : Fence.Inv M P gate (M.judged z x v) := by
  have hgr : gate z.store x.job x.worker → M.running z.store x.job := fun hg => (h.holds x hx hg).1
  have hmem : ∀ y, y ∈ (M.judged z x v).execs ↔ y ∈ z.execs ∧ y.claim ≠ x.claim := by
    intro y
    simp [Lessor.judged]
  -- what is added to the ended claims, if anything
  have hended : ∀ e ∈ (M.judged z x v).ended, e ∈ z.ended ∨ e = (some x.claim, x.claim) := by
    intro e he
    simp only [Lessor.judged] at he
    split at he
    · next hend =>
      rcases List.mem_append.mp he with he | he
      · exact Or.inl he
      · right
        rw [List.mem_singleton.mp he, h.ends hf hx (v := v)]
        intro heq
        rw [heq] at hend
        simp at hend
    · exact Or.inl he
  have hxc : x.claim ∈ z.execs.map (·.claim) := List.mem_map_of_mem hx
  refine ⟨hf.judge_inv v h.store hgr, fun y hy hg => ?_, fun y hy y' hy' => ?_, fun y hy => ?_, ?_, fun e he => ?_,
    fun e he => ?_, ?_⟩
  · obtain ⟨hy, hne⟩ := (hmem y).mp hy
    by_cases hgx : gate z.store x.job x.worker
    · obtain ⟨hg₀, hrun⟩ := hf.judged v h.store hgr hg
      have hjob : y.job ≠ x.job := by
        intro hj
        have hw : y.worker = x.worker := hf.one h.store (hj ▸ hg₀) hgx
        exact hne (congrArg Exec.claim (h.lone y hy x hx hj hw))
      obtain ⟨hr, hh⟩ := h.holds y hy hg₀
      exact ⟨hrun hjob hr, held_running (hrun hjob hr) (fun _ hn => absurd hn List.not_mem_nil) hh⟩
    · have hsame : M.judge z.store x.job x.worker v = z.store := hf.shut v h.store hgx
      have hg₀ : gate z.store y.job y.worker := hsame ▸ hg
      obtain ⟨hr, hh⟩ := h.holds y hy hg₀
      have hr' : M.running (M.judged z x v).store y.job := by
        show M.running (M.judge z.store x.job x.worker v) y.job
        rw [hsame]
        exact hr
      exact ⟨hr', held_running hr' (fun _ hn => absurd hn List.not_mem_nil) hh⟩
  · exact h.lone y ((hmem y).mp hy).1 y' ((hmem y').mp hy').1
  · exact h.fresh y ((hmem y).mp hy).1
  · exact h.claims.sublist (List.Sublist.map _ List.filter_sublist)
  · rcases hended e he with he | rfl
    · exact h.own e he
    · rfl
  · rcases hended e he with he | rfl
    · obtain ⟨hlt, hno⟩ := h.past e he
      exact ⟨hlt, fun hm => hno (List.Sublist.mem hm (List.Sublist.map _ List.filter_sublist))⟩
    · refine ⟨h.fresh x hx, fun hm => ?_⟩
      obtain ⟨y, hy, hyx⟩ := List.mem_map.mp hm
      exact ((hmem y).mp hy).2 hyx
  · show (List.map Prod.fst (if _ then _ else _)).Nodup
    split
    · next hend =>
      have hh : z.holder x.job = some x.claim := by
        refine h.ends hf hx (v := v) (fun heq => ?_)
        rw [heq] at hend
        simp at hend
      rw [List.map_append, List.map_singleton, List.nodup_append']
      refine ⟨h.once, List.nodup_singleton _, fun c hc hc' => ?_⟩
      obtain ⟨e, he, rfl⟩ := List.mem_map.mp hc
      rw [List.mem_singleton, h.own e he, hh, Option.some.injEq] at hc'
      exact (h.past e he).2 (hc' ▸ hxc)
    · exact h.once

/-- **The rule.** Every run whose calls are careful is fenced. -/
theorem Fence.fenced (hf : Fence M P gate may safe) {s₀ : σ} (h₀ : P s₀) {z : Leased σ J W}
    (h : Reach (M.Step (M.Careful may safe)) { store := s₀ } z) : M.Fenced z := by
  have hinv : Fence.Inv M P gate z := by
    refine Reach.inv h ?_ (fun z₁ act z₂ h₁ hs => ?_)
    · exact ⟨h₀, fun _ hx => absurd hx List.not_mem_nil, fun _ hx => absurd hx List.not_mem_nil,
        fun _ hx => absurd hx List.not_mem_nil, List.nodup_nil, fun _ he => absurd he List.not_mem_nil,
        fun _ he => absurd he List.not_mem_nil, List.nodup_nil⟩
    · cases hs with
      | call a hok => exact h₁.called hf hok
      | verdict x hx v => exact h₁.judged hf hx v
  refine ⟨fun x hx hh v => hf.shut v hinv.store (fun hg => hh (hinv.holds x hx hg).2), hinv.own, hinv.once⟩

end Lessor

end Eddyq.Lib
