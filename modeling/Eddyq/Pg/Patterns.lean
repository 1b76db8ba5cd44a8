import Eddyq.Globs

/-!
# Rule patterns as `LIKE` patterns

`materialize_from_rule` replaces `*` by `%` and `?` by `_` and leaves every other character to `LIKE`, for which `%`, `_` and
the backslash are not themselves. A pattern without them is matched as a glob (`likeMatch_glob`); for any other there is
a key that `LIKE` takes, or fails on, and the glob refuses (`leastKey`).
-/

namespace Eddyq.Pg

open Eddyq.Lib

/-- The language of a pattern. -/
def patternLanguage (pattern : String) : Language Char := globLanguage (globItems '*' '?' pattern.toList)

/-- The condition of `materialize_from_rule` never fails and holds for the keys of the language. -/
def Recognizes (pattern : String) : Prop :=
  ∀ key : String, ∃ b, likeMatch (likePattern pattern) key.toList = .ok b ∧
    (b = true ↔ key.toList ∈ patternLanguage pattern)

/-! ## A key for a special pattern -/

/-- `*` and `?` replaced. -/
def replaced (c : Char) : Char := if c = '*' then '%' else if c = '?' then '_' else c

/-- A key that `LIKE` takes for the replaced pattern: nothing for a `%`, `a` for a `_`, and what stands behind a backslash. -/
def leastKey : List Char → List Char
  | [] => []
  | ['\\'] => ['a']
  | '\\' :: c :: p => replaced c :: leastKey p
  | c :: p =>
    if replaced c = '%' then leastKey p
    else if replaced c = '_' then 'a' :: leastKey p
    else c :: leastKey p

/-- The backslash and `_` are heavy. -/
def charWeight (c : Char) : Nat := if c = '\\' ∨ c = '_' then 2 else 1

theorem one_le_charWeight (c : Char) : 1 ≤ charWeight c := by
  unfold charWeight
  split <;> decide

theorem replaced_of_ne {c : Char} (hstar : c ≠ '*') (hmark : c ≠ '?') : replaced c = c := by
  rw [replaced, if_neg hstar, if_neg hmark]

theorem likeAny_here {f : List Char → Except Error Bool} {t : List Char} (h : f t ≠ .ok false) : likeAny f t ≠ .ok false := by
  cases t with
  | nil => exact h
  | cons c t =>
    rw [likeAny]
    cases hf : f (c :: t) with
    | error e => rintro ⟨⟩
    | ok b =>
      cases b with
      | false => exact absurd hf h
      | true => rintro ⟨⟩

theorem not_backslash {c : Char} {p : List Char} (h1 : c = '\\' → p = [] → False)
    (h2 : ∀ d p', c = '\\' → p = d :: p' → False) : c ≠ '\\' := by
  rintro rfl
  cases p with
  | nil => exact h1 rfl rfl
  | cons d p => exact h2 d p rfl rfl

/-- `LIKE` does not refuse the key. -/
theorem likeMatch_leastKey (p : List Char) : likeMatch (p.map replaced) (leastKey p) ≠ .ok false := by
  induction p using leastKey.induct with
  | case1 => nofun
  | case2 => nofun
  | case3 c p ih =>
    show likeMatch ('\\' :: replaced c :: p.map replaced) (replaced c :: leastKey p) ≠ .ok false
    rw [likeMatch, if_pos rfl]
    exact ih
  | case4 c p h1 h2 hpercent ih =>
    rw [List.map_cons, hpercent, leastKey, if_pos hpercent]
    · exact likeAny_here ih
    · exact h1
    · exact h2
  | case5 c p h1 h2 hpercent hunder ih =>
    rw [List.map_cons, hunder, leastKey, if_neg hpercent, if_pos hunder]
    · exact ih
    · exact h1
    · exact h2
  | case6 c p h1 h2 hpercent hunder ih =>
    have hself : replaced c = c := replaced_of_ne (by rintro rfl; exact hpercent rfl) (by rintro rfl; exact hunder rfl)
    have hplain : PlainChar c := ⟨hself ▸ hpercent, hself ▸ hunder, not_backslash h1 h2⟩
    rw [List.map_cons, hself, leastKey, if_neg hpercent, if_neg hunder, likeMatch_plain hplain]
    · dsimp only
      rw [if_pos rfl]
      exact ih
    · exact h1
    · exact h2

/-- What a key of the language weighs at least. -/
def globWeight (p : List Char) : Nat := ((globItems '*' '?' p).map (GlobItem.weight charWeight)).sum

theorem globWeight_cons (c : Char) (p : List Char) : globWeight (c :: p) =
    (if c = '*' then 0 else if c = '?' then 1 else charWeight c) + globWeight p := by
  unfold globWeight globItems
  rw [List.map_cons, List.map_cons, List.sum_cons]
  split
  · rfl
  · split <;> rfl

def keyWeight (t : List Char) : Nat := (t.map charWeight).sum

theorem keyWeight_cons (c : Char) (t : List Char) : keyWeight (c :: t) = charWeight c + keyWeight t := rfl

/-- A character and what the key has for it; a special one is lighter in the key. -/
theorem head_light (c : Char) :
    (if replaced c = '%' then 0 else if replaced c = '_' then 1 else charWeight c) ≤
      (if c = '*' then 0 else if c = '?' then 1 else charWeight c) ∧
    (¬ PlainChar c → c ≠ '\\' → (if replaced c = '%' then 0 else if replaced c = '_' then 1 else charWeight c) <
      (if c = '*' then 0 else if c = '?' then 1 else charWeight c)) := by
  by_cases hstar : c = '*'
  · subst hstar
    decide
  by_cases hmark : c = '?'
  · subst hmark
    decide
  rw [replaced_of_ne hstar hmark, if_neg hstar, if_neg hmark]
  by_cases hpercent : c = '%'
  · subst hpercent
    decide
  by_cases hunder : c = '_'
  · subst hunder
    decide
  rw [if_neg hpercent, if_neg hunder]
  exact ⟨le_rfl, fun hspecial hback => absurd ⟨hpercent, hunder, hback⟩ hspecial⟩

/-- The key is too light for a pattern with special characters. -/
theorem leastKey_light (p : List Char) : keyWeight (leastKey p) ≤ globWeight p ∧
    ((∃ c ∈ p, ¬ PlainChar c) → keyWeight (leastKey p) < globWeight p) := by
  -- a character that is no backslash, before a rest that is light
  have hstep : ∀ (c : Char) (p : List Char), c ≠ '\\' → keyWeight (leastKey (c :: p)) =
      (if replaced c = '%' then 0 else if replaced c = '_' then 1 else charWeight c) + keyWeight (leastKey p) →
      (keyWeight (leastKey p) ≤ globWeight p ∧ ((∃ c ∈ p, ¬ PlainChar c) → keyWeight (leastKey p) < globWeight p)) →
      keyWeight (leastKey (c :: p)) ≤ globWeight (c :: p) ∧
        ((∃ d ∈ c :: p, ¬ PlainChar d) → keyWeight (leastKey (c :: p)) < globWeight (c :: p)) := by
    rintro c p hback heq ⟨hle, hlt⟩
    obtain ⟨hhead, hspecial⟩ := head_light c
    rw [heq, globWeight_cons]
    refine ⟨Nat.add_le_add hhead hle, ?_⟩
    rintro ⟨d, hd, hd'⟩
    rcases List.mem_cons.mp hd with rfl | hd
    · exact Nat.add_lt_add_of_lt_of_le (hspecial hd' hback) hle
    · exact Nat.add_lt_add_of_le_of_lt hhead (hlt ⟨d, hd, hd'⟩)
  induction p using leastKey.induct with
  | case1 => exact ⟨le_rfl, nofun⟩
  | case2 => exact ⟨by decide, fun _ => by decide⟩
  | case3 c p ih =>
    have hlight : charWeight (replaced c) < 2 + (if c = '*' then 0 else if c = '?' then 1 else charWeight c) := by
      by_cases hstar : c = '*'
      · subst hstar
        decide
      · by_cases hmark : c = '?'
        · subst hmark
          decide
        · rw [replaced_of_ne hstar hmark, if_neg hstar, if_neg hmark]
          omega
    have hlt : keyWeight (leastKey ('\\' :: c :: p)) < globWeight ('\\' :: c :: p) := by
      show keyWeight (replaced c :: leastKey p) < _
      rw [keyWeight_cons, globWeight_cons, globWeight_cons]
      have hback : (if '\\' = '*' then 0 else if '\\' = '?' then 1 else charWeight '\\') = 2 := by decide
      omega
    exact ⟨hlt.le, fun _ => hlt⟩
  | case4 c p h1 h2 hpercent ih =>
    refine hstep c p (not_backslash h1 h2) ?_ ih
    rw [leastKey, if_pos hpercent, if_pos hpercent, Nat.zero_add]
    · exact h1
    · exact h2
  | case5 c p h1 h2 hpercent hunder ih =>
    refine hstep c p (not_backslash h1 h2) ?_ ih
    rw [leastKey, if_neg hpercent, if_pos hunder, if_neg hpercent, if_pos hunder]
    · rfl
    · exact h1
    · exact h2
  | case6 c p h1 h2 hpercent hunder ih =>
    refine hstep c p (not_backslash h1 h2) ?_ ih
    rw [leastKey, if_neg hpercent, if_neg hunder, if_neg hpercent, if_neg hunder]
    · rfl
    · exact h1
    · exact h2

/-! ## The condition -/

/-- **A pattern is recognized** exactly if it has none of the special characters of `LIKE`. -/
theorem recognizes_iff (pattern : String) : Recognizes pattern ↔ ∀ c ∈ pattern.toList, PlainChar c := by
  constructor
  · intro h
    by_contra hspecial
    push Not at hspecial
    obtain ⟨b, hb, hiff⟩ := h (String.ofList (leastKey pattern.toList))
    rw [String.toList_ofList] at hb hiff
    cases b with
    | false => exact likeMatch_leastKey pattern.toList hb
    | true =>
      have hmem := weight_le_of_mem one_le_charWeight (hiff.mp rfl)
      exact absurd hmem (not_le.mpr ((leastKey_light pattern.toList).2 hspecial))
  · intro hplain key
    refine ⟨_, likeMatch_glob pattern.toList hplain key.toList, globMatch_iff⟩

/-- **An underscore** stands for any character: the key `acb` gets the limits of `a_b`. -/
theorem underscore_matches : ¬ ∀ pattern, Recognizes pattern := by
  intro h
  obtain ⟨b, hb, hiff⟩ := h "a_b" "acb"
  cases hb
  exact absurd (globMatch_iff.mpr (hiff.mp rfl)) (by decide)

end Eddyq.Pg
