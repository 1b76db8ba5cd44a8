import Mathlib.Data.List.Basic
import Mathlib.Data.List.Dedup

/-!
# Recursive queries and loose index scans

`rounds step n base` is `WITH RECURSIVE` over `UNION ALL`: the rows of the last round are the working table of the next
one, and the query ends with the first round that adds nothing. A loose index scan is such a query: it seeks the least
key past the last one. `Trail next o l` says that the keys visited from `o` on are `l`. A scan over finitely many keys
has a trail (`Seeks.trail`), the trail visits every key once (`Seeks.perm`), and enough rounds follow it to its end
(`rounds_toList`, `rounds_null`).
-/

namespace Eddyq.Lib

/-! ## `WITH RECURSIVE` -/

section Rounds

variable {ρ : Type*}

/-- `n` rounds at most from the working table; none if the query has not ended by then. -/
def rounds (step : List ρ → List ρ) : Nat → List ρ → Option (List ρ)
  | 0, _ => none
  | _ + 1, [] => some []
  | n + 1, r :: rs => (rounds step n (step (r :: rs))).map (fun rest => r :: rs ++ rest)

/-- A query that has ended is not changed by more rounds. -/
theorem rounds_add {step : List ρ → List ρ} {n : Nat} {base l : List ρ} (h : rounds step n base = some l) (m : Nat) :
    rounds step (n + m) base = some l := by
  induction n generalizing base l with
  | zero => cases h
  | succ n ih =>
    rw [Nat.succ_add]
    cases base with
    | nil => exact h
    | cons r rs =>
      simp only [rounds, Option.map_eq_some_iff] at h ⊢
      obtain ⟨rest, hrest, rfl⟩ := h
      exact ⟨rest, ih hrest, rfl⟩

end Rounds

/-! ## Trails -/

section Trail

variable {α : Type*} {next : α → Option α}

/-- The keys visited from `o` on, one after the other, until there is no next one. -/
inductive Trail (next : α → Option α) : Option α → List α → Prop
  | nil : Trail next none []
  | cons {k l} : Trail next (next k) l → Trail next (some k) (k :: l)

/-- The rows of a round are joined with what is next for them: a row without a next key adds none. -/
theorem rounds_toList {o : Option α} {l : List α} (h : Trail next o l) :
    rounds (List.filterMap next) (l.length + 1) o.toList = some l := by
  induction h with
  | nil => rfl
  | @cons k l _ ih =>
    have hstep : List.filterMap next [k] = (next k).toList := by
      cases hk : next k <;> simp [hk]
    simp only [Option.toList_some, List.length_cons, rounds, hstep, ih]
    rfl

/-- What is next is a column of its own: past the last key it is `NULL`, and only a row with a key has a next one. -/
theorem rounds_null {o : Option α} {l : List α} (h : Trail next o l) :
    rounds (fun rs => (rs.filterMap id).map next) (l.length + 2) [o] = some (l.map some ++ [none]) := by
  induction h with
  | nil => rfl
  | @cons k l _ ih =>
    simp only [List.length_cons, rounds, List.filterMap_cons, id, List.filterMap_nil, List.map_cons, List.map_nil] at ih ⊢
    rw [ih]
    rfl

end Trail

/-! ## Orders of keys -/

section Order

variable {α β : Type*}

/-- A strict order in which only equal keys are incomparable. -/
structure StrictTotal (lt : α → α → Prop) : Prop where
  irrefl : ∀ a, ¬ lt a a
  trans : ∀ {a b c}, lt a b → lt b c → lt a c
  total : ∀ {a b}, ¬ lt a b → ¬ lt b a → a = b

/-- Row comparison: by the first column, then by the second. -/
theorem StrictTotal.row {lt : α → α → Prop} {lt' : β → β → Prop} (h : StrictTotal lt) (h' : StrictTotal lt') :
    StrictTotal (fun a b : α × β => lt a.1 b.1 ∨ a.1 = b.1 ∧ lt' a.2 b.2) where
  irrefl a ha := ha.elim (h.irrefl _) (fun ha => h'.irrefl _ ha.2)
  trans := by
    rintro ⟨a, a'⟩ ⟨b, b'⟩ ⟨c, c'⟩ (hab | ⟨rfl, hab⟩) (hbc | ⟨rfl, hbc⟩)
    · exact .inl (h.trans hab hbc)
    · exact .inl hab
    · exact .inl hbc
    · exact .inr ⟨rfl, h'.trans hab hbc⟩
  total := by
    rintro ⟨a, a'⟩ ⟨b, b'⟩ hab hba
    rw [not_or, not_and] at hab hba
    obtain rfl : a = b := h.total hab.1 hba.1
    exact Prod.ext rfl (h'.total (hab.2 rfl) (hba.2 rfl))

end Order

/-! ## Seeking -/

section Seek

variable {α : Type*} {lt : α → α → Prop} {keys : List α} {next : α → Option α} {start : Option α}

/-- The least of the keys with `p`, if there is one. -/
def LeastOf (lt : α → α → Prop) (keys : List α) (p : α → Prop) : Option α → Prop
  | none => ∀ x ∈ keys, ¬ p x
  | some m => m ∈ keys ∧ p m ∧ ∀ x ∈ keys, p x → ¬ lt x m

/-- A loose scan: it starts at the least key and goes on to the least key past the last one. -/
structure Seeks (lt : α → α → Prop) (keys : List α) (start : Option α) (next : α → Option α) : Prop
    extends StrictTotal lt where
  start : LeastOf lt keys (fun _ => True) start
  next : ∀ k, LeastOf lt keys (lt k) (next k)

/-- The keys past one. -/
def past (lt : α → α → Prop) [DecidableRel lt] (keys : List α) (k : α) : List α := keys.filter (fun x => lt k x)

/-- Every seek leaves fewer keys ahead. -/
theorem Seeks.past_lt [DecidableRel lt] (s : Seeks lt keys start next) {k m : α} (h : next k = some m) :
    (past lt keys m).length < (past lt keys k).length := by
  obtain ⟨hm, hkm, -⟩ := (h ▸ s.next k : LeastOf lt keys (lt k) (some m))
  have hsub : past lt keys m = (past lt keys k).filter (fun x => lt m x) := by
    rw [past, past, List.filter_filter]
    refine List.filter_congr (fun x _ => ?_)
    by_cases hx : lt m x
    · simp [hx, s.trans hkm hx]
    · simp [hx]
  rw [hsub, List.length_filter_lt_length_iff_exists]
  exact ⟨m, List.mem_filter.mpr ⟨hm, by simpa using hkm⟩, by simpa using s.irrefl m⟩

/-- From a key on, the scan ends. -/
theorem Seeks.trail_from (s : Seeks lt keys start next) (k : α) : ∃ l, Trail next (some k) l := by
  classical
  induction hn : (past lt keys k).length using Nat.strongRecOn generalizing k with
  | _ n ih =>
    cases hk : next k with
    | none => exact ⟨[k], .cons (hk ▸ .nil)⟩
    | some m =>
      obtain ⟨l, hl⟩ := ih _ (hn ▸ s.past_lt hk) m rfl
      exact ⟨k :: l, .cons (hk ▸ hl)⟩

/-- **A loose scan ends.** -/
theorem Seeks.trail (s : Seeks lt keys start next) : ∃ l, Trail next start l := by
  cases hs : start with
  | none => exact ⟨[], .nil⟩
  | some k => exact s.trail_from k

/-- What is visited after a key: keys past it, in order, and all of them. -/
theorem Seeks.visits (s : Seeks lt keys start next) {k : α} {l : List α} (h : Trail next (some k) l) :
    l.Pairwise lt ∧ ∀ x, x ∈ l ↔ x = k ∨ x ∈ keys ∧ lt k x := by
  generalize ho : some k = o at h
  induction h generalizing k with
  | nil => cases ho
  | @cons k' l ht ih =>
    obtain rfl := Option.some.inj ho
    have hn := s.next k
    cases hk : next k with
    | none =>
      rw [hk] at ht hn
      cases ht
      refine ⟨List.pairwise_singleton _ _, fun x => ?_⟩
      rw [List.mem_singleton]
      exact ⟨Or.inl, fun h => h.elim id (fun h => absurd h.2 (hn x h.1))⟩
    | some m =>
      rw [hk] at ht hn
      obtain ⟨hm, hkm, hmin⟩ := hn
      obtain ⟨hpw, hmem⟩ := ih hk.symm
      refine ⟨List.pairwise_cons.mpr ⟨fun x hx => ?_, hpw⟩, fun x => ?_⟩
      · rcases (hmem x).mp hx with rfl | ⟨-, hx⟩
        · exact hkm
        · exact s.trans hkm hx
      · rw [List.mem_cons, hmem]
        refine or_congr_right ⟨?_, fun ⟨hx, hkx⟩ => ?_⟩
        · rintro (rfl | ⟨hx, hmx⟩)
          · exact ⟨hm, hkm⟩
          · exact ⟨hx, s.trans hkm hmx⟩
        · by_cases hmx : lt m x
          · exact .inr ⟨hx, hmx⟩
          · exact .inl (s.total (hmin x hx hkx) hmx)

/-- **A loose scan visits every key, and none twice.** -/
theorem Seeks.perm [DecidableEq α] (s : Seeks lt keys start next) {l : List α} (h : Trail next start l) :
    l.Nodup ∧ l.Perm keys.dedup := by
  have hboth : l.Nodup ∧ ∀ x, x ∈ l ↔ x ∈ keys := by
    have hs := s.start
    cases hk : start with
    | none =>
      rw [hk] at h hs
      cases h
      exact ⟨List.nodup_nil, fun x => ⟨fun hx => absurd hx List.not_mem_nil, fun hx => absurd trivial (hs x hx)⟩⟩
    | some k =>
      rw [hk] at h hs
      obtain ⟨hmk, -, hmin⟩ := hs
      obtain ⟨hpw, hmem⟩ := s.visits h
      refine ⟨hpw.imp (fun {a b} (hab : lt a b) (heq : a = b) => s.irrefl b (heq ▸ hab)), fun x => ?_⟩
      rw [hmem]
      refine ⟨fun hx => hx.elim (fun e => e ▸ hmk) And.left, fun hx => ?_⟩
      by_cases hkx : lt k x
      · exact .inr ⟨hx, hkx⟩
      · exact .inl (s.total (hmin x hx trivial) hkx)
  refine ⟨hboth.1, (List.perm_ext_iff_of_nodup hboth.1 (List.nodup_dedup _)).mpr fun x => ?_⟩
  rw [hboth.2, List.mem_dedup]

end Seek

end Eddyq.Lib
