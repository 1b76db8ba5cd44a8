import Eddyq.Lib.Rows
import Mathlib.Data.List.Induction

/-!
# The best of a list

`Best hit le l x` says that `x` is a hit of the list that is at least as good as every other. A picker (`Picks`) returns one of
the best, and the one it meets first when that is one; sorting and taking the head is a picker (`picks_head`), and so is a
loop that keeps the best so far (`picks_foldl`). Which hits two pickers may return does not depend on the order of the list, but
what they return does, unless the best agree (`same_iff`).
-/

namespace Eddyq.Lib

variable {α β : Type*}

/-- A hit that no hit of the list beats. -/
structure Best (hit : α → Bool) (le : α → α → Bool) (l : List α) (x : α) : Prop where
  mem : x ∈ l
  isHit : hit x = true
  top : ∀ y ∈ l, hit y = true → le x y = true

/-- It returns one of the best, none only without a hit, and the first of the list if that is one of the best. -/
structure Picks (hit : α → Bool) (le : α → α → Bool) (pick : List α → Option α) : Prop where
  best : ∀ {l x}, pick l = some x → Best hit le l x
  none : ∀ {l}, pick l = none → ∀ x ∈ l, hit x = false
  first : ∀ {l x}, Best hit le (x :: l) x → pick (x :: l) = some x

/-- The best so far. -/
def keepBest (hit : α → Bool) (le : α → α → Bool) (best : Option α) (x : α) : Option α :=
  if hit x then
    match best with
    | none => some x
    | some b => if le b x then some b else some x
  else best

section Pickers

variable {hit : α → Bool} {le : α → α → Bool}

/-- Sorting and taking the head. -/
theorem picks_head (htotal : ∀ a b, le a b = true ∨ le b a = true)
    (htrans : ∀ a b c, le a b = true → le b c = true → le a c = true) :
    Picks hit le (fun l => (orderBy le (l.filter hit)).head?) where
  best := by
    intro l x h
    have hsorted := pairwise_orderBy htotal htrans (l.filter hit)
    obtain ⟨ys, hys⟩ := List.head?_eq_some_iff.mp h
    rw [hys] at hsorted
    have hmem : ∀ y, y ∈ x :: ys ↔ y ∈ l ∧ hit y = true := by
      intro y
      rw [← hys, mem_orderBy, List.mem_filter]
    have hx := (hmem x).mp List.mem_cons_self
    refine ⟨hx.1, hx.2, fun y hy hhit => ?_⟩
    rcases List.mem_cons.mp ((hmem y).mpr ⟨hy, hhit⟩) with rfl | hy'
    · exact (htotal _ _).elim id id
    · exact (List.pairwise_cons.mp hsorted).1 y hy'
  none := by
    intro l h x hx
    rw [List.head?_eq_none_iff] at h
    by_contra hhit
    rw [Bool.not_eq_false] at hhit
    have hin : x ∈ orderBy le (l.filter hit) := mem_orderBy.mpr (List.mem_filter.mpr ⟨hx, hhit⟩)
    rw [h] at hin
    cases hin
  first := by
    intro l x h
    have hle : ∀ y ∈ l.filter hit, le x y = true := fun y hy =>
      h.top y (List.mem_cons_of_mem _ (List.mem_filter.mp hy).1) (List.mem_filter.mp hy).2
    have hcons : orderBy le ((x :: l).filter hit) = x :: orderBy le (l.filter hit) := by
      rw [List.filter_cons_of_pos h.isHit]
      exact List.insertionSort_cons_of_forall_rel _ hle
    rw [hcons, List.head?_cons]

/-- What a turn of the loop keeps. -/
theorem keepBest_turn (htotal : ∀ a b, le a b = true ∨ le b a = true)
    (htrans : ∀ a b c, le a b = true → le b c = true → le a c = true) {pre : List α} {o : Option α} {x : α}
    (hbest : ∀ y, o = some y → Best hit le pre y) (hnone : o = none → ∀ y ∈ pre, hit y = false) :
    (∀ y, keepBest hit le o x = some y → Best hit le (pre ++ [x]) y) ∧
      (keepBest hit le o x = none → ∀ y ∈ pre ++ [x], hit y = false) := by
  -- what is best of the rows before and no worse than `x` is best of all
  have hextend : ∀ y, Best hit le pre y → (hit x = true → le y x = true) → Best hit le (pre ++ [x]) y := by
    intro y hy hx
    refine ⟨List.mem_append_left _ hy.mem, hy.isHit, fun z hz hhit => ?_⟩
    rcases List.mem_append.mp hz with hz | hz
    · exact hy.top z hz hhit
    · obtain rfl := List.mem_singleton.mp hz
      exact hx hhit
  have hself : le x x = true := (htotal x x).elim id id
  unfold keepBest
  by_cases hx : hit x = true
  · rw [if_pos hx]
    cases o with
    | none =>
      refine ⟨fun y hy => ?_, nofun⟩
      cases hy
      refine ⟨List.mem_append_right _ (List.mem_singleton_self _), hx, fun z hz hhit => ?_⟩
      rcases List.mem_append.mp hz with hz | hz
      · rw [hnone rfl z hz] at hhit
        cases hhit
      · obtain rfl := List.mem_singleton.mp hz
        exact hself
    | some b =>
      have hb := hbest b rfl
      dsimp only
      split
      · next hle => exact ⟨fun y hy => by cases hy; exact hextend b hb fun _ => hle, nofun⟩
      · next hle =>
        have hxb : le x b = true := (htotal b x).resolve_left hle
        refine ⟨fun y hy => ?_, nofun⟩
        cases hy
        refine ⟨List.mem_append_right _ (List.mem_singleton_self _), hx, fun z hz hhit => ?_⟩
        rcases List.mem_append.mp hz with hz | hz
        · exact htrans _ _ _ hxb (hb.top z hz hhit)
        · obtain rfl := List.mem_singleton.mp hz
          exact hself
  · rw [if_neg hx]
    refine ⟨fun y hy => hextend y (hbest y hy) fun h => absurd h hx, fun ho y hy => ?_⟩
    rcases List.mem_append.mp hy with hy | hy
    · exact hnone ho y hy
    · obtain rfl := List.mem_singleton.mp hy
      simpa using hx

/-- Keeping the best so far. -/
theorem picks_foldl (htotal : ∀ a b, le a b = true ∨ le b a = true)
    (htrans : ∀ a b c, le a b = true → le b c = true → le a c = true) :
    Picks hit le (fun l => l.foldl (keepBest hit le) none) := by
  have hrun : ∀ l : List α, (∀ x, l.foldl (keepBest hit le) none = some x → Best hit le l x) ∧
      (l.foldl (keepBest hit le) none = none → ∀ x ∈ l, hit x = false) := by
    intro l
    induction l using List.reverseRecOn with
    | nil => exact ⟨nofun, fun _ _ hx => by cases hx⟩
    | append_singleton l x ih =>
      rw [List.foldl_append, List.foldl_cons, List.foldl_nil]
      exact keepBest_turn htotal htrans ih.1 ih.2
  -- the best is not given up again
  have hstay : ∀ (l : List α) (x : α), (∀ y ∈ l, hit y = true → le x y = true) →
      l.foldl (keepBest hit le) (some x) = some x := by
    intro l x
    induction l with
    | nil => exact fun _ => rfl
    | cons y l ih =>
      intro h
      have hy : keepBest hit le (some x) y = some x := by
        unfold keepBest
        split
        · next hhit =>
          dsimp only
          rw [if_pos (h y List.mem_cons_self hhit)]
        · rfl
      rw [List.foldl_cons, hy]
      exact ih fun z hz => h z (List.mem_cons_of_mem _ hz)
  refine ⟨fun {l x} => (hrun l).1 x, fun {l} => (hrun l).2, fun {l x} h => ?_⟩
  have hfirst : keepBest hit le none x = some x := by
    rw [keepBest, if_pos h.isHit]
  rw [List.foldl_cons, hfirst]
  exact hstay l x fun y hy => h.top y (List.mem_cons_of_mem _ hy)

end Pickers

/-! ## Two pickers -/

section Same

variable {hit hit' : α → Bool} {le le' : α → α → Bool} {pick pick' : List α → Option α} {l l' : List α}

theorem Best.perm {x : α} (h : Best hit le l x) (hp : l.Perm l') : Best hit le l' x :=
  ⟨hp.mem_iff.mp h.mem, h.isHit, fun y hy => h.top y (hp.mem_iff.mpr hy)⟩

/-- Each of the best is picked from some order of the list. -/
theorem Picks.exists_perm [DecidableEq α] (h : Picks hit le pick) {x : α} (hx : Best hit le l x) :
    ∃ l', l'.Perm l ∧ pick l' = some x := by
  have hp : (x :: l.erase x).Perm l := (List.perm_cons_erase hx.mem).symm
  exact ⟨_, hp, h.first (hx.perm hp.symm)⟩

/-- A list with a hit has a best one. -/
theorem Picks.exists_best (h : Picks hit le pick) {x : α} (hx : x ∈ l) (hhit : hit x = true) : ∃ y, Best hit le l y := by
  cases hp : pick l with
  | none =>
    rw [h.none hp x hx] at hhit
    cases hhit
  | some y => exact ⟨y, h.best hp⟩

/-- **Two pickers return the same value in every order** exactly when the best agree. -/
theorem same_iff [DecidableEq α] (h : Picks hit le pick) (h' : Picks hit' le' pick') (f : α → β) (l : List α) :
    (∃ o, ∀ l', l'.Perm l → (pick l').map f = o ∧ (pick' l').map f = o) ↔
      (∀ x y, (Best hit le l x ∨ Best hit' le' l x) → (Best hit le l y ∨ Best hit' le' l y) → f x = f y) ∧
        ((∃ x, Best hit le l x) ↔ ∃ x, Best hit' le' l x) := by
  constructor
  · rintro ⟨o, ho⟩
    have hvalue : ∀ x, (Best hit le l x ∨ Best hit' le' l x) → o = some (f x) := by
      rintro x (hx | hx)
      · obtain ⟨l', hp, hpick⟩ := h.exists_perm hx
        rw [← (ho l' hp).1, hpick, Option.map_some]
      · obtain ⟨l', hp, hpick⟩ := h'.exists_perm hx
        rw [← (ho l' hp).2, hpick, Option.map_some]
    refine ⟨fun x y hx hy => ?_, ⟨?_, ?_⟩⟩
    · exact Option.some.inj ((hvalue x hx).symm.trans (hvalue y hy))
    · rintro ⟨x, hx⟩
      have hsome := (ho l (List.Perm.refl l)).2.trans (hvalue x (.inl hx))
      obtain ⟨y, hy, -⟩ := Option.map_eq_some_iff.mp hsome
      exact ⟨y, h'.best hy⟩
    · rintro ⟨x, hx⟩
      have hsome := (ho l (List.Perm.refl l)).1.trans (hvalue x (.inr hx))
      obtain ⟨y, hy, -⟩ := Option.map_eq_some_iff.mp hsome
      exact ⟨y, h.best hy⟩
  · rintro ⟨hsame, hboth⟩
    by_cases hx : ∃ x, Best hit le l x
    · obtain ⟨x, hx⟩ := hx
      obtain ⟨x', hx'⟩ := hboth.mp ⟨x, hx⟩
      refine ⟨some (f x), fun l' hp => ⟨?_, ?_⟩⟩
      · cases hpick : pick l' with
        | none =>
          have := h.none hpick x (hp.mem_iff.mpr hx.mem)
          rw [hx.isHit] at this
          cases this
        | some y => rw [Option.map_some, hsame y x (.inl ((h.best hpick).perm hp)) (.inl hx)]
      · cases hpick : pick' l' with
        | none =>
          have := h'.none hpick x' (hp.mem_iff.mpr hx'.mem)
          rw [hx'.isHit] at this
          cases this
        | some y => rw [Option.map_some, hsame y x (.inr ((h'.best hpick).perm hp)) (.inl hx)]
    · have hx' : ¬ ∃ x, Best hit' le' l x := fun hx' => hx (hboth.mpr hx')
      refine ⟨none, fun l' hp => ⟨?_, ?_⟩⟩
      · cases hpick : pick l' with
        | none => rfl
        | some y => exact absurd ⟨y, (h.best hpick).perm hp⟩ hx
      · cases hpick : pick' l' with
        | none => rfl
        | some y => exact absurd ⟨y, (h'.best hpick).perm hp⟩ hx'

end Same

end Eddyq.Lib
