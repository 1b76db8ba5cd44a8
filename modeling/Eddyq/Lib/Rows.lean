import Mathlib.Data.List.Basic
import Mathlib.Data.List.Sort

/-!
# Tables of rows

A table is a list of rows. `updateWhere p f` is `UPDATE ... SET f WHERE p`; what it does to a count of rows is
`countP_updateWhere`, what it leaves alone is `map_updateWhere`. A transaction body is a computation in `Except`; one
that succeeds has succeeded at every statement (`bind_eq_ok`).
-/

namespace Eddyq.Lib

variable {ρ κ : Type*}

/-- `UPDATE ... SET f WHERE p`. -/
def updateWhere (p : ρ → Bool) (f : ρ → ρ) (l : List ρ) : List ρ := l.map (fun r => if p r then f r else r)

@[simp]
theorem updateWhere_nil (p : ρ → Bool) (f : ρ → ρ) : updateWhere p f [] = [] := rfl

@[simp]
theorem updateWhere_cons (p : ρ → Bool) (f : ρ → ρ) (r : ρ) (l : List ρ) :
    updateWhere p f (r :: l) = (if p r then f r else r) :: updateWhere p f l := rfl

theorem mem_updateWhere {p : ρ → Bool} {f : ρ → ρ} {l : List ρ} {r : ρ} :
    r ∈ updateWhere p f l ↔ ∃ r₀ ∈ l, (if p r₀ then f r₀ else r₀) = r := List.mem_map

/-- Every row that was there is still there, updated or not. -/
theorem mem_updateWhere_of_mem {p : ρ → Bool} {f : ρ → ρ} {l : List ρ} {r : ρ} (h : r ∈ l) :
    (if p r then f r else r) ∈ updateWhere p f l := mem_updateWhere.mpr ⟨r, h, rfl⟩

/-- What an update sets matters only for the rows it hits. -/
theorem updateWhere_congr {p : ρ → Bool} {f g : ρ → ρ} {l : List ρ} (h : ∀ r ∈ l, p r → f r = g r) :
    updateWhere p f l = updateWhere p g l := by
  refine List.map_congr_left (fun r hr => ?_)
  split
  · next hp => exact h r hr hp
  · rfl

/-- An update that hits no row. -/
theorem updateWhere_of_find_none {p : ρ → Bool} {l : List ρ} (f : ρ → ρ) (h : l.find? p = none) :
    updateWhere p f l = l := by
  refine (List.map_congr_left fun r hr => ?_).trans (List.map_id _)
  rw [if_neg (List.find?_eq_none.mp h r hr)]
  rfl

/-- A column that the update does not set. -/
theorem map_updateWhere {p : ρ → Bool} {f : ρ → ρ} {g : ρ → κ} (h : ∀ r, g (f r) = g r) (l : List ρ) :
    (updateWhere p f l).map g = l.map g := by
  rw [updateWhere, List.map_map]
  refine List.map_congr_left (fun r _ => ?_)
  simp only [Function.comp_apply]
  split
  · exact h r
  · rfl

/-- A count after an update: the rows that left it are gone, the rows that entered it are there. -/
theorem countP_updateWhere (p q : ρ → Bool) (f : ρ → ρ) (l : List ρ) :
    (updateWhere p f l).countP q + l.countP (fun r => p r && q r) =
      l.countP q + l.countP (fun r => p r && q (f r)) := by
  induction l with
  | nil => rfl
  | cons r l ih =>
    simp only [updateWhere_cons, List.countP_cons]
    by_cases hp : p r
    · simp only [hp, if_true, Bool.true_and]
      omega
    · simp only [hp, Bool.false_eq_true, if_false, Bool.false_and]
      omega

/-- The rows that match, counted along. -/
theorem countP_filter_eq (p q : ρ → Bool) (l : List ρ) : (l.filter p).countP q = l.countP (fun r => p r && q r) := by
  rw [List.countP_filter]
  refine List.countP_congr (fun r _ => ?_)
  rw [Bool.and_comm]

/-- The rows of one kind or of the other, never of both. -/
theorem countP_eq_add {q q₁ q₂ : ρ → Bool} {l : List ρ} (h : ∀ r ∈ l, q r = (q₁ r || q₂ r))
    (hd : ∀ r ∈ l, q₁ r → ¬ q₂ r) : l.countP q = l.countP q₁ + l.countP q₂ := by
  induction l with
  | nil => rfl
  | cons r l ih =>
    have ih := ih (fun x hx => h x (List.mem_cons_of_mem _ hx)) (fun x hx => hd x (List.mem_cons_of_mem _ hx))
    have hr := h r List.mem_cons_self
    have hdr := hd r List.mem_cons_self
    simp only [List.countP_cons, ih, hr]
    by_cases h1 : q₁ r
    · simp only [h1, hdr h1, Bool.or_false, if_true, Bool.false_eq_true, if_false]
      omega
    · simp only [h1, Bool.false_or, Bool.false_eq_true, if_false]
      omega

/-- A row that a key picks out, counted along. -/
theorem countP_of_find [DecidableEq κ] {p : ρ → Bool} {key : ρ → κ} {k : κ} (hp : ∀ r, p r → key r = k) {l : List ρ}
    (hnd : (l.map key).Nodup) {r : ρ} (hr : l.find? p = some r) (q : ρ → Bool) :
    l.countP (fun x => p x && q x) = if q r then 1 else 0 := by
  induction l with
  | nil => cases hr
  | cons x l ih =>
    rw [List.map_cons, List.nodup_cons] at hnd
    rw [List.countP_cons]
    by_cases hx : p x
    · rw [List.find?_cons_of_pos hx, Option.some.injEq] at hr
      subst hr
      have hrest : l.countP (fun y => p y && q y) = 0 := by
        rw [List.countP_eq_zero]
        intro y hy hh
        simp only [Bool.and_eq_true] at hh
        refine hnd.1 ?_
        rw [hp x hx, ← hp y hh.1]
        exact List.mem_map_of_mem hy
      simp [hrest, hx]
    · rw [List.find?_cons_of_neg hx] at hr
      rw [ih hnd.2 hr]
      simp [hx]

/-! ## Rows by their key -/

section Key

variable [DecidableEq κ] {g : ρ → κ}

/-- The row of a key after an update of the rows of one key. -/
theorem find?_updateWhere {f : ρ → ρ} (hf : ∀ r, g (f r) = g r) (k' k : κ) (l : List ρ) :
    (updateWhere (fun r => g r = k') f l).find? (fun r => g r = k) =
      if k = k' then (l.find? (fun r => g r = k)).map f else l.find? (fun r => g r = k) := by
  induction l with
  | nil => split <;> rfl
  | cons r l ih =>
    rw [updateWhere_cons]
    by_cases hr : g r = k
    · by_cases hk : k = k'
      · simp [hr, hk, hf]
      · simp [hr, hk]
    · have hne : ¬ g (if decide (g r = k') then f r else r) = k := by
        split
        · rw [hf]
          exact hr
        · exact hr
      rw [List.find?_cons_of_neg (by simpa using hne), List.find?_cons_of_neg (by simpa using hr), ih]

/-- The row of a key among the rows of some keys. -/
theorem find?_filter_key (p : κ → Bool) (k : κ) (l : List ρ) :
    (l.filter (fun r => p (g r))).find? (fun r => g r = k) =
      if p k then l.find? (fun r => g r = k) else none := by
  rw [List.find?_filter]
  split
  · next hp =>
    congr 1
    funext r
    by_cases hr : g r = k
    · simp [hr, hp]
    · simp [hr]
  · next hp =>
    rw [List.find?_eq_none]
    intro r _ hr
    simp only [decide_eq_true_eq] at hr
    exact hp (hr.2 ▸ hr.1)

/-- Where keys are distinct, a row is found by its key. -/
theorem find?_of_nodup {l : List ρ} (hnd : (l.map g).Nodup) {r : ρ} (hr : r ∈ l) : l.find? (fun x => g x = g r) = some r := by
  induction l with
  | nil => cases hr
  | cons x l ih =>
    rw [List.map_cons, List.nodup_cons] at hnd
    rcases List.mem_cons.mp hr with rfl | hr
    · exact List.find?_cons_of_pos (decide_eq_true rfl)
    · have hne : g x ≠ g r := fun heq => hnd.1 (heq ▸ List.mem_map_of_mem hr)
      rw [List.find?_cons_of_neg (by simpa using hne)]
      exact ih hnd.2 hr

/-- A column of the row of a key, read off the list of the keys with that column. -/
theorem find?_map_key {β : Type*} (c : ρ → β) (k : κ) (l : List ρ) :
    (l.find? (fun r => g r = k)).map c = ((l.map (fun r => (g r, c r))).find? (fun x => x.1 = k)).map Prod.snd := by
  rw [List.find?_map, Option.map_map]
  rfl

/-- The row of a key after an upsert: the updated row or the new one. -/
theorem find?_upsert {f : ρ → ρ} (hf : ∀ r, g (f r) = g r) (new : ρ) (k : κ) (l : List ρ) :
    (if l.any (fun r => g r = g new) then updateWhere (fun r => g r = g new) f l else l ++ [new]).find? (fun r => g r = k) =
      if k = g new then some (((l.find? (fun r => g r = k)).map f).getD new) else l.find? (fun r => g r = k) := by
  split
  · next hany =>
    rw [find?_updateWhere hf]
    split
    · next hk =>
      obtain ⟨r, hr, hkey⟩ := List.any_eq_true.mp hany
      cases hfind : l.find? (fun r => g r = k) with
      | none => exact absurd (hk ▸ hkey) (List.find?_eq_none.mp hfind r hr)
      | some x => rfl
    · rfl
  · next hnone =>
    rw [List.find?_append]
    by_cases hk : k = g new
    · have hmiss : l.find? (fun r => g r = k) = none := by
        refine List.find?_eq_none.mpr (fun r hr hkey => hnone (List.any_eq_true.mpr ⟨r, hr, ?_⟩))
        exact hk ▸ hkey
      rw [if_pos hk, hmiss, List.find?_cons_of_pos (by simpa using hk.symm)]
      rfl
    · rw [if_neg hk, List.find?_cons_of_neg (by simpa using fun he => hk he.symm), List.find?_nil, Option.or_none]

end Key

/-- `ORDER BY`, stable. -/
def orderBy (le : ρ → ρ → Bool) (l : List ρ) : List ρ := l.insertionSort (fun a b => le a b = true)

theorem perm_orderBy (le : ρ → ρ → Bool) (l : List ρ) : (orderBy le l).Perm l := List.perm_insertionSort _ l

/-- What is in order already stays as it is. -/
theorem orderBy_of_sorted {le : ρ → ρ → Bool} {l : List ρ} (h : l.Pairwise (fun a b => le a b = true)) : orderBy le l = l :=
  h.insertionSort_eq

theorem mem_orderBy {le : ρ → ρ → Bool} {l : List ρ} {r : ρ} : r ∈ orderBy le l ↔ r ∈ l := (perm_orderBy le l).mem_iff

theorem pairwise_orderBy {le : ρ → ρ → Bool} (htotal : ∀ a b, le a b = true ∨ le b a = true)
    (htrans : ∀ a b c, le a b = true → le b c = true → le a c = true) (l : List ρ) :
    (orderBy le l).Pairwise (fun a b => le a b = true) :=
  have : Std.Total (fun a b => le a b = true) := ⟨htotal⟩
  have : IsTrans ρ (fun a b => le a b = true) := ⟨htrans⟩
  List.pairwise_insertionSort _ l

/-! ## Loops -/

/-- What holds at the start of a loop and is kept by each turn, given the turns before it, holds at its end. -/
theorem foldl_turns {α β : Type*} (f : β → α → β) (b : β) (l : List α) {P : List α → β → Prop} (h0 : P [] b)
    (hstep : ∀ pre x post, l = pre ++ x :: post → P pre (pre.foldl f b) → P (pre ++ [x]) (f (pre.foldl f b) x)) :
    P l (l.foldl f b) := by
  suffices h : ∀ post pre, l = pre ++ post → P pre (pre.foldl f b) → P (pre ++ post) ((pre ++ post).foldl f b) from
    h l [] rfl h0
  intro post
  induction post with
  | nil =>
    intro pre _ h
    simpa using h
  | cons x post ih =>
    intro pre heq h
    have hnext := hstep pre x post heq h
    have hturn : (pre ++ [x]).foldl f b = f (pre.foldl f b) x := by simp
    have := ih (pre ++ [x]) (by simpa using heq) (hturn ▸ hnext)
    simpa using this

/-! ## Transaction bodies -/

section Except

variable {ε α β : Type}

theorem bind_eq_ok {x : Except ε α} {f : α → Except ε β} {b : β} (h : (x >>= f) = .ok b) :
    ∃ a, x = .ok a ∧ f a = .ok b := by
  cases x with
  | error e => cases h
  | ok a => exact ⟨a, rfl, h⟩

theorem bind_ok_iff {x : Except ε α} {f : α → Except ε β} {b : β} :
    (x >>= f) = .ok b ↔ ∃ a, x = .ok a ∧ f a = .ok b :=
  ⟨bind_eq_ok, fun ⟨_, ha, hb⟩ => ha ▸ hb⟩

theorem map_eq_ok {x : Except ε α} {f : α → β} {b : β} (h : x.map f = .ok b) : ∃ a, x = .ok a ∧ f a = b := by
  cases x with
  | error e => cases h
  | ok a => exact ⟨a, rfl, Except.ok.inj h⟩

end Except

end Eddyq.Lib
