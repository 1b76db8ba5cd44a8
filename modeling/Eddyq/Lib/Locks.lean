import Eddyq.Lib.Runs

/-!
# Transactions that hold row locks

Any number of transactions run on one store, statement by statement, in any order. What a transaction writes becomes
the store's only when it commits; until then it holds locks on rows, and a statement takes only rows that no one else
holds. `Disciplined` are the local obligations: what each statement keeps of its own transaction, that a commit changes
nothing outside the rows it holds, and that what a transaction relies on is in the rows it holds. From these,
`Disciplined.kept` is what holds in every interleaving.
-/

namespace Eddyq.Lib

variable {σ ℓ ρ τ : Type*}

/-- The committed store, and the transactions open on it. -/
structure Sessions (σ ℓ τ : Type*) where
  store : σ
  opened : τ → Option ℓ

/-- The programs of the transactions. -/
structure Engine (σ ℓ ρ : Type*) where
  /-- Where a transaction begins. -/
  begins : ℓ → Prop
  /-- The rows a transaction holds. -/
  held : ℓ → ρ → Prop
  /-- A statement, given which rows are free for it. -/
  stmt : (ρ → Prop) → σ → ℓ → ℓ → Prop
  /-- The store a commit leaves. -/
  commits : σ → ℓ → σ → Prop

/-- No one but `t` holds the row. -/
def Engine.Free (E : Engine σ ℓ ρ) (z : Sessions σ ℓ τ) (t : τ) (r : ρ) : Prop :=
  ∀ t' l, t' ≠ t → z.opened t' = some l → ¬ E.held l r

section Steps

variable [DecidableEq τ] (E : Engine σ ℓ ρ)

/-- What transaction `t` may do next. It may be rolled back at any time. -/
inductive Engine.Step (z : Sessions σ ℓ τ) (t : τ) : Sessions σ ℓ τ → Prop
  | begin {l : ℓ} (idle : z.opened t = none) (h : E.begins l) :
      Engine.Step z t { z with opened := Function.update z.opened t (some l) }
  | stmt {l l' : ℓ} (now : z.opened t = some l) (h : E.stmt (E.Free z t) z.store l l') :
      Engine.Step z t { z with opened := Function.update z.opened t (some l') }
  | commit {l : ℓ} {s : σ} (now : z.opened t = some l) (h : E.commits z.store l s) :
      Engine.Step z t { store := s, opened := Function.update z.opened t none }
  | rollback : Engine.Step z t { z with opened := Function.update z.opened t none }

end Steps

/-- No two transactions hold one row, the store is well, and every transaction is where it should be. -/
structure Engine.Kept (E : Engine σ ℓ ρ) (Inv : σ → Prop) (Ok : σ → ℓ → Prop) (z : Sessions σ ℓ τ) : Prop where
  exclusive : ∀ {t t' l l'} r, t ≠ t' → z.opened t = some l → z.opened t' = some l' → E.held l r → ¬ E.held l' r
  inv : Inv z.store
  ok : ∀ {t l}, z.opened t = some l → Ok z.store l

/-- The local obligations; `Same own s s'` says that outside the rows `own` nothing has changed. -/
structure Engine.Disciplined (E : Engine σ ℓ ρ) (Inv : σ → Prop) (Ok : σ → ℓ → Prop)
    (Same : (ρ → Prop) → σ → σ → Prop) : Prop where
  begins_held : ∀ {l r}, E.begins l → ¬ E.held l r
  begins_ok : ∀ {s l}, Inv s → E.begins l → Ok s l
  stmt_held : ∀ {free s l l' r}, E.stmt free s l l' → E.held l' r → E.held l r ∨ free r
  stmt_ok : ∀ {free s l l'}, Inv s → Ok s l → E.stmt free s l l' → Ok s l'
  commits_inv : ∀ {s l s'}, Inv s → Ok s l → E.commits s l s' → Inv s'
  commits_same : ∀ {s l s'}, Inv s → Ok s l → E.commits s l s' → Same (E.held l) s s'
  stable : ∀ {own s s' l}, Same own s s' → (∀ r, E.held l r → ¬ own r) → Ok s l → Ok s' l

section Kept

variable [DecidableEq τ] {E : Engine σ ℓ ρ} {Inv : σ → Prop} {Ok : σ → ℓ → Prop} {Same : (ρ → Prop) → σ → σ → Prop}
  {z z' : Sessions σ ℓ τ} {t : τ}

/-- A transaction is open that was not, or is not where it was. -/
theorem Engine.Kept.set (h : E.Kept Inv Ok z) {l : ℓ} (hok : Ok z.store l)
    (hheld : ∀ r, E.held l r → (∃ l₀, z.opened t = some l₀ ∧ E.held l₀ r) ∨ E.Free z t r) :
    E.Kept Inv Ok { z with opened := Function.update z.opened t (some l) } := by
  -- what the transaction holds, no one else does
  have hmine : ∀ {t' l'} r, t' ≠ t → z.opened t' = some l' → E.held l r → ¬ E.held l' r := by
    intro t' l' r hne hl' hr
    rcases hheld r hr with ⟨l₀, hl₀, hr₀⟩ | hfree
    · exact h.exclusive r hne.symm hl₀ hl' hr₀
    · exact hfree t' l' hne hl'
  refine ⟨fun {t₁ t₂ l₁ l₂} r hne h₁ h₂ hr₁ hr₂ => ?_, h.inv, fun {t' l'} hl' => ?_⟩
  · by_cases he₁ : t₁ = t
    · subst he₁
      have hne₂ : t₂ ≠ t₁ := hne.symm
      simp only [Function.update_self, Option.some.injEq] at h₁
      simp only [Function.update_of_ne hne₂] at h₂
      exact hmine r hne₂ h₂ (h₁ ▸ hr₁) hr₂
    · by_cases he₂ : t₂ = t
      · subst he₂
        simp only [Function.update_self, Option.some.injEq] at h₂
        simp only [Function.update_of_ne he₁] at h₁
        exact hmine r he₁ h₁ (h₂ ▸ hr₂) hr₁
      · simp only [Function.update_of_ne he₁] at h₁
        simp only [Function.update_of_ne he₂] at h₂
        exact h.exclusive r hne h₁ h₂ hr₁ hr₂
  · by_cases he : t' = t
    · subst he
      simp only [Function.update_self, Option.some.injEq] at hl'
      exact hl' ▸ hok
    · simp only [Function.update_of_ne he] at hl'
      exact h.ok hl'

/-- What is open when `t` is not was open before. -/
theorem opened_of_closed {t' : τ} {l : ℓ} (h : Function.update z.opened t none t' = some l) :
    t' ≠ t ∧ z.opened t' = some l := by
  by_cases he : t' = t
  · subst he
    rw [Function.update_self] at h
    cases h
  · rw [Function.update_of_ne he] at h
    exact ⟨he, h⟩

/-- What is open when `t` stands at `l` is that, or was open before. -/
theorem opened_of_set {t' : τ} {l l' : ℓ} (h : Function.update z.opened t (some l) t' = some l') :
    l' = l ∨ z.opened t' = some l' := by
  by_cases he : t' = t
  · subst he
    rw [Function.update_self] at h
    exact Or.inl (Option.some.inj h).symm
  · rw [Function.update_of_ne he] at h
    exact Or.inr h

/-- One step. -/
theorem Engine.Disciplined.step (hd : E.Disciplined Inv Ok Same) (h : E.Kept Inv Ok z) (hs : E.Step z t z') :
    E.Kept Inv Ok z' := by
  cases hs with
  | begin idle hb => exact h.set (hd.begins_ok h.inv hb) (fun r hr => absurd hr (hd.begins_held hb))
  | @stmt l l' now hst =>
    refine h.set (hd.stmt_ok h.inv (h.ok now) hst) (fun r hr => ?_)
    rcases hd.stmt_held hst hr with hold | hfree
    · exact Or.inl ⟨l, now, hold⟩
    · exact Or.inr hfree
  | @commit l s now hc =>
    refine ⟨fun r hne h₁ h₂ => ?_, hd.commits_inv h.inv (h.ok now) hc, fun hl' => ?_⟩
    · exact h.exclusive r hne (opened_of_closed h₁).2 (opened_of_closed h₂).2
    · -- the others hold none of the rows that changed
      obtain ⟨hne, hl'⟩ := opened_of_closed hl'
      exact hd.stable (hd.commits_same h.inv (h.ok now) hc) (fun r hr => h.exclusive r hne hl' now hr) (h.ok hl')
  | rollback =>
    refine ⟨fun r hne h₁ h₂ => ?_, h.inv, fun hl' => h.ok (opened_of_closed hl').2⟩
    exact h.exclusive r hne (opened_of_closed h₁).2 (opened_of_closed h₂).2

/-- **Every interleaving**: from a store that is well and has no open transaction. -/
theorem Engine.Disciplined.kept (hd : E.Disciplined Inv Ok Same) {z₀ : Sessions σ ℓ τ} (hidle : ∀ t, z₀.opened t = none)
    (hinv : Inv z₀.store) (h : Reach E.Step z₀ z) : E.Kept Inv Ok z := by
  refine Reach.inv h ⟨fun r _ h₁ => ?_, hinv, fun hl => ?_⟩ (fun _ _ _ hk hs => hd.step hk hs)
  · rw [hidle] at h₁
    cases h₁
  · rw [hidle] at hl
    cases hl

end Kept

end Eddyq.Lib
