import Mathlib.Data.List.Basic
import Mathlib.Logic.Function.Basic

/-!
# Runs of a transition system, and loops that may stop

A system is a labelled step relation `R : σ → α → σ → Prop`; `Run R s as s'` is a run with the labels `as`. A
property that every step keeps is kept by every run (`Run.inv`). Systems given by a function `f` whose steps are
taken only when a guard holds are the instance `Guarded ok f`; a list of labels that meets the guard throughout
is a run (`run_of_guards`).

`forEach f l s` is a loop over a list whose body may stop it (`false`); what the body keeps, the loop keeps
(`forEach_inv`). When the body at `i` touches only the `i`-th component of the state, a loop over distinct indices
can assume of each one what held before the loop (`forEach_local`).
-/

namespace Eddyq.Lib

variable {σ α ι γ : Type*}

/-! ## Runs -/

/-- The runs of a labelled step relation, with their labels in order. -/
inductive Run (R : σ → α → σ → Prop) (s₀ : σ) : List α → σ → Prop
  | nil : Run R s₀ [] s₀
  | snoc {as : List α} {s s' : σ} (a : α) : Run R s₀ as s → R s a s' → Run R s₀ (as ++ [a]) s'

/-- The states that some run reaches. -/
def Reach (R : σ → α → σ → Prop) (s₀ s : σ) : Prop := ∃ as, Run R s₀ as s

theorem Reach.refl {R : σ → α → σ → Prop} (s : σ) : Reach R s s := ⟨[], .nil⟩

theorem Reach.step {R : σ → α → σ → Prop} {s₀ s s' : σ} (h : Reach R s₀ s) {a : α} (hs : R s a s') :
    Reach R s₀ s' := by
  obtain ⟨as, hr⟩ := h
  exact ⟨as ++ [a], hr.snoc a hs⟩

/-- **The invariant rule**: what holds initially and is kept by every step holds in every state of every run. -/
theorem Run.inv {R : σ → α → σ → Prop} {P : σ → Prop} {s₀ s : σ} {as : List α} (h : Run R s₀ as s) (h₀ : P s₀)
    (hstep : ∀ s a s', P s → R s a s' → P s') : P s := by
  induction h with
  | nil => exact h₀
  | snoc a _ hs ih => exact hstep _ a _ ih hs

theorem Reach.inv {R : σ → α → σ → Prop} {P : σ → Prop} {s₀ s : σ} (h : Reach R s₀ s) (h₀ : P s₀)
    (hstep : ∀ s a s', P s → R s a s' → P s') : P s := by
  obtain ⟨as, hr⟩ := h
  exact hr.inv h₀ hstep

/-- A step before a run. -/
theorem Run.cons {R : σ → α → σ → Prop} {s₀ s₁ s : σ} {a : α} {as : List α} (hs : R s₀ a s₁) (h : Run R s₁ as s) :
    Run R s₀ (a :: as) s := by
  induction h with
  | nil => exact Run.nil.snoc a hs
  | snoc b _ hb ih => exact ih.snoc b hb

/-- A run of a relation is a run of every weaker one. -/
theorem Run.mono {R R' : σ → α → σ → Prop} (hR : ∀ s a s', R s a s' → R' s a s') {s₀ s : σ} {as : List α}
    (h : Run R s₀ as s) : Run R' s₀ as s := by
  induction h with
  | nil => exact .nil
  | snoc a _ hs ih => exact ih.snoc a (hR _ _ _ hs)

theorem Reach.mono {R R' : σ → α → σ → Prop} (hR : ∀ s a s', R s a s' → R' s a s') {s₀ s : σ}
    (h : Reach R s₀ s) : Reach R' s₀ s := by
  obtain ⟨as, hr⟩ := h
  exact ⟨as, hr.mono hR⟩

/-- The steps of a function, taken only where the guard allows. -/
def Guarded (ok : σ → α → Prop) (f : σ → α → σ) (s : σ) (a : α) (s' : σ) : Prop := ok s a ∧ s' = f s a

/-- The labels of a list meet the guard, each in the state the ones before it lead to. -/
def Guards (ok : σ → α → Prop) (f : σ → α → σ) : σ → List α → Prop
  | _, [] => True
  | s, a :: as => ok s a ∧ Guards ok f (f s a) as

/-- A list of labels that meets the guard throughout is a run. -/
theorem run_of_guards {ok : σ → α → Prop} {f : σ → α → σ} {s₀ : σ} :
    ∀ (as : List α) {s : σ}, Reach (Guarded ok f) s₀ s → Guards ok f s as →
      Reach (Guarded ok f) s₀ (as.foldl f s)
  | [], _, h, _ => h
  | a :: as, _, h, hg => run_of_guards as (h.step (a := a) ⟨hg.1, rfl⟩) hg.2

/-! ## Loops that may stop -/

/-- A loop over a list; the body returns `false` to stop it, and the loop returns whether it ran to its end. -/
def forEach (f : σ → ι → σ × Bool) : List ι → σ → σ × Bool
  | [], s => (s, true)
  | i :: is, s => if (f s i).2 then forEach f is (f s i).1 else f s i

/-- What the body keeps, the loop keeps. -/
theorem forEach_inv {f : σ → ι → σ × Bool} {P : σ → Prop} :
    ∀ {l : List ι} {s : σ}, P s → (∀ s, ∀ i ∈ l, P s → P (f s i).1) → P (forEach f l s).1
  | [], _, h, _ => h
  | i :: is, s, h, hf => by
    have h1 : P (f s i).1 := hf s i List.mem_cons_self h
    unfold forEach
    split
    · exact forEach_inv h1 (fun t j hj => hf t j (List.mem_cons_of_mem _ hj))
    · exact h1

/-- A loop over distinct indices whose body at `i` leaves the component of every other index alone: at each index
the body may assume of its own component what held of it before the loop. -/
theorem forEach_local {f : σ → ι → σ × Bool} {c : σ → ι → γ} {P : σ → Prop} {Q : γ → Prop} :
    ∀ {l : List ι} {s : σ}, l.Nodup → P s → (∀ i ∈ l, Q (c s i)) →
      (∀ s i j, j ≠ i → c (f s i).1 j = c s j) → (∀ s i, P s → Q (c s i) → P (f s i).1) →
      P (forEach f l s).1
  | [], _, _, h, _, _, _ => h
  | i :: is, s, hnd, h, hQ, hloc, hf => by
    have h1 : P (f s i).1 := hf s i h (hQ i List.mem_cons_self)
    have hrest : ∀ j ∈ is, Q (c (f s i).1 j) := by
      intro j hj
      have hne : j ≠ i := fun e => (List.nodup_cons.mp hnd).1 (e ▸ hj)
      rw [hloc s i j hne]
      exact hQ j (List.mem_cons_of_mem _ hj)
    unfold forEach
    split
    · exact forEach_local (List.nodup_cons.mp hnd).2 h1 hrest hloc hf
    · exact h1

theorem forEach_true (f : σ → ι → σ) (l : List ι) (s : σ) : (forEach (fun s i => (f s i, true)) l s).1 = l.foldl f s := by
  induction l generalizing s with
  | nil => rfl
  | cons i is ih => exact ih (f s i)

/-- The same for a fold, a loop that never stops. -/
theorem foldl_local {f : σ → ι → σ} {c : σ → ι → γ} {P : σ → Prop} {Q : γ → Prop} {l : List ι} {s : σ}
    (hnd : l.Nodup) (h : P s) (hQ : ∀ i ∈ l, Q (c s i)) (hloc : ∀ s i j, j ≠ i → c (f s i) j = c s j)
    (hf : ∀ s i, P s → Q (c s i) → P (f s i)) : P (l.foldl f s) := by
  rw [← forEach_true]
  exact forEach_local hnd h hQ hloc hf

/-- A loop whose body rewrites its own component by `g` and never stops: every component of the list has been rewritten
once. An index may come twice if `g` does nothing the second time. -/
theorem forEach_each [DecidableEq ι] {f : σ → ι → σ × Bool} {c : σ → ι → γ} {g : γ → γ} {Q : γ → Prop}
    (hown : ∀ s i, Q (c s i) → c (f s i).1 i = g (c s i) ∧ (f s i).2 = true)
    (hloc : ∀ s i j, j ≠ i → c (f s i).1 j = c s j) (hQ : ∀ x, Q x → Q (g x)) :
    ∀ {l : List ι} {s : σ}, (l.Nodup ∨ ∀ x, Q x → g (g x) = g x) → (∀ i ∈ l, Q (c s i)) →
      ∀ j, c (forEach f l s).1 j = if j ∈ l then g (c s j) else c s j
  | [], _, _, _, _ => rfl
  | i :: is, s, hl, hq, j => by
    obtain ⟨hi, hgo⟩ := hown s i (hq i List.mem_cons_self)
    have hrest : ∀ k ∈ is, Q (c (f s i).1 k) := by
      intro k hk
      by_cases hki : k = i
      · subst hki
        rw [hi]
        exact hQ _ (hq k List.mem_cons_self)
      · rw [hloc s i k hki]
        exact hq k (List.mem_cons_of_mem _ hk)
    have hl' : is.Nodup ∨ ∀ x, Q x → g (g x) = g x := hl.imp (fun hn => (List.nodup_cons.mp hn).2) (fun h => h)
    rw [forEach, if_pos hgo, forEach_each hown hloc hQ hl' hrest j]
    by_cases hji : j = i
    · subst hji
      rw [if_pos List.mem_cons_self, hi]
      split
      · next hin =>
        rcases hl with hn | hidem
        · exact absurd hin (List.nodup_cons.mp hn).1
        · exact hidem _ (hq j List.mem_cons_self)
      · rfl
    · rw [hloc s i j hji]
      simp [hji]

/-- A loop that also counts the indices at which `hit` held when their turn came. -/
def forEachCount (f : σ → ι → σ × Bool) (hit : σ → ι → Bool) (l : List ι) (s : σ) : σ × Option Nat :=
  let r := forEach (fun (p : σ × Nat) i => (((f p.1 i).1, if hit p.1 i then p.2 + 1 else p.2), (f p.1 i).2)) l (s, 0)
  (r.1.1, if r.2 then some r.1.2 else none)

/-- Counting does not change what a loop does. -/
theorem forEachCount_fst (f : σ → ι → σ × Bool) (hit : σ → ι → Bool) (l : List ι) (s : σ) :
    (forEachCount f hit l s).1 = (forEach f l s).1 := by
  unfold forEachCount
  generalize 0 = n
  induction l generalizing s n with
  | nil => rfl
  | cons i is ih =>
    simp only [forEach]
    split
    · exact ih _ _
    · rfl

end Eddyq.Lib
