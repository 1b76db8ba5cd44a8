import Mathlib.Data.List.Basic

/-!
# Logs

A log lists what has happened, latest last. `Each Q log` says of every entry what stands before it, and is proved entry by entry
as the log grows (`Each.snoc`); that one entry stands before another is `[a, b].Sublist log` (`pair_snoc`).
-/

namespace Eddyq.Lib

variable {ε : Type*} {Q : List ε → ε → Prop} {log : List ε} {a b e : ε}

/-- Each entry of a log stands in `Q` to what is before it. -/
def Each (Q : List ε → ε → Prop) (log : List ε) : Prop := ∀ before e after, log = before ++ e :: after → Q before e

theorem each_nil : Each Q [] := fun before e after h => absurd h.symm (by simp)

/-- A log grows by one entry. -/
theorem Each.snoc (h : Each Q log) (he : Q log e) : Each Q (log ++ [e]) := by
  intro before e' after heq
  rcases List.eq_nil_or_concat after with rfl | ⟨after, last, rfl⟩
  · obtain ⟨rfl, hlast⟩ := List.append_inj' heq rfl
    obtain rfl := List.singleton_inj.mp hlast
    exact he
  · have hsplit : log ++ [e] = (before ++ e' :: after) ++ [last] := by simpa using heq
    exact h before e' after (List.append_inj' hsplit rfl).1

/-- Two entries in order, of which the second may be the new one. -/
theorem pair_snoc (h : [a, b].Sublist (log ++ [e])) : [a, b].Sublist log ∨ a ∈ log ∧ b = e := by
  obtain ⟨l₁, l₂, heq, h₁, h₂⟩ := List.sublist_append_iff.mp h
  cases l₂ with
  | nil =>
    rw [List.append_nil] at heq
    exact .inl (heq ▸ h₁)
  | cons x l₂ =>
    obtain ⟨hx, hnil⟩ : x = e ∧ l₂ = [] := by simpa [List.sublist_cons_iff] using h₂
    subst hx hnil
    obtain ⟨hl, hx⟩ := List.append_inj' (show [a] ++ [b] = l₁ ++ [x] from heq) rfl
    exact .inr ⟨h₁.subset (hl ▸ List.mem_singleton_self a), List.singleton_inj.mp hx⟩

theorem pair_of_mem (h : a ∈ log) : [a, e].Sublist (log ++ [e]) :=
  (List.singleton_sublist.mpr h).append (List.Sublist.refl [e])

end Eddyq.Lib
