import Mathlib.Computability.Language
import Mathlib.Algebra.Order.Ring.Nat
import Mathlib.Data.List.Infix

/-!
# Globs

A glob is a list of items: any text, any one character, or a character that stands for itself. `globLanguage` is the language
of a glob and `globMatch` decides it (`globMatch_iff`); the alphabet is a parameter, so that a glob can be held against
characters or against their encodings (`globMatch_encode`).
-/

namespace Eddyq.Lib

variable {α β : Type*}

/-- `*`, `?` or a character. -/
inductive GlobItem (α : Type*)
  | many
  | one
  | lit (a : α)

/-- Whether a text matches. -/
def globMatch [DecidableEq α] : List (GlobItem α) → List α → Bool
  | [], t => t.isEmpty
  | .many :: g, t => t.tails.any (globMatch g)
  | .one :: _, [] => false
  | .one :: g, _ :: t => globMatch g t
  | .lit _ :: _, [] => false
  | .lit a :: g, b :: t => a = b && globMatch g t

/-- The tails of a text are what is left after some of its characters. -/
theorem any_drop_eq_any_tails (f : List α → Bool) (t : List α) :
    (List.range (t.length + 1)).any (fun i => f (t.drop i)) = t.tails.any f := by
  rw [Bool.eq_iff_iff, List.any_eq_true, List.any_eq_true]
  constructor
  · rintro ⟨i, -, hi⟩
    exact ⟨t.drop i, (List.mem_tails _ _).mpr (List.drop_suffix i t), hi⟩
  · rintro ⟨r, hr, hf⟩
    have hr := (List.mem_tails _ _).mp hr
    refine ⟨t.length - r.length, List.mem_range.mpr (by omega), ?_⟩
    rwa [← List.suffix_iff_eq_drop.mp hr]

theorem suffix_append_cases {r l l' : List α} (h : r <:+ l ++ l') : r <:+ l' ∨ ∃ w, w <:+ l ∧ r = w ++ l' := by
  rcases List.suffix_or_suffix_of_suffix h (List.suffix_append l l') with hr | ⟨w, rfl⟩
  · exact .inl hr
  · obtain ⟨x, hx⟩ := h
    rw [← List.append_assoc] at hx
    exact .inr ⟨w, ⟨x, List.append_cancel_right hx⟩, rfl⟩

theorem globMatch_many [DecidableEq α] {g : List (GlobItem α)} {t : List α} :
    globMatch (.many :: g) t = true ↔ ∃ r, r <:+ t ∧ globMatch g r = true := by
  simp [globMatch, List.any_eq_true, List.mem_tails]

/-! ## Languages -/

/-- The texts that an item stands for. -/
def GlobItem.language : GlobItem α → Language α
  | .many => ⊤
  | .one => {t | t.length = 1}
  | .lit a => {[a]}

/-- The language of a glob. -/
def globLanguage (g : List (GlobItem α)) : Language α := (g.map GlobItem.language).prod

section Languages

variable {g : List (GlobItem α)} {t : List α}

theorem mem_globLanguage_nil : t ∈ globLanguage [] ↔ t = [] := Iff.rfl

theorem mem_globLanguage_cons {i : GlobItem α} :
    t ∈ globLanguage (i :: g) ↔ ∃ a ∈ i.language, ∃ b ∈ globLanguage g, a ++ b = t := by
  rw [globLanguage, List.map_cons, List.prod_cons]
  exact Language.mem_mul

theorem mem_many {t : List α} : t ∈ GlobItem.many.language := trivial

theorem mem_one : t ∈ GlobItem.one.language ↔ ∃ a, t = [a] := List.length_eq_one_iff

theorem mem_lit {a : α} : t ∈ (GlobItem.lit a).language ↔ t = [a] := Iff.rfl

/-- **The matcher** decides the language. -/
theorem globMatch_iff [DecidableEq α] : ∀ {g : List (GlobItem α)} {t : List α},
    globMatch g t = true ↔ t ∈ globLanguage g
  | [], t => by
    rw [mem_globLanguage_nil, globMatch, List.isEmpty_iff]
  | .many :: g, t => by
    rw [globMatch_many, mem_globLanguage_cons]
    constructor
    · rintro ⟨r, ⟨a, rfl⟩, hr⟩
      exact ⟨a, mem_many, r, globMatch_iff.mp hr, rfl⟩
    · rintro ⟨a, -, r, hr, rfl⟩
      exact ⟨r, List.suffix_append a r, globMatch_iff.mpr hr⟩
  | .one :: g, t => by
    rw [mem_globLanguage_cons]
    constructor
    · cases t with
      | nil => nofun
      | cons a t => exact fun h => ⟨[a], mem_one.mpr ⟨a, rfl⟩, t, (globMatch_iff (g := g)).mp h, rfl⟩
    · rintro ⟨a, ha, r, hr, rfl⟩
      obtain ⟨b, rfl⟩ := mem_one.mp ha
      show globMatch g r = true
      exact globMatch_iff.mpr hr
  | .lit a :: g, t => by
    rw [mem_globLanguage_cons]
    constructor
    · cases t with
      | nil => nofun
      | cons b t =>
        intro h
        rw [globMatch, Bool.and_eq_true, decide_eq_true_eq] at h
        obtain ⟨rfl, h⟩ := h
        exact ⟨[a], mem_lit.mpr rfl, t, globMatch_iff.mp h, rfl⟩
    · rintro ⟨x, hx, r, hr, rfl⟩
      obtain rfl := mem_lit.mp hx
      rw [List.singleton_append, globMatch, Bool.and_eq_true, decide_eq_true_eq]
      exact ⟨rfl, globMatch_iff.mpr hr⟩

/-- What an item takes at least of a text, for weights that are at least 1. -/
def GlobItem.weight (w : α → Nat) : GlobItem α → Nat
  | .many => 0
  | .one => 1
  | .lit a => w a

/-- A text of the language is as heavy as the glob. -/
theorem weight_le_of_mem {w : α → Nat} (hw : ∀ a, 1 ≤ w a) {g : List (GlobItem α)} :
    ∀ {t : List α}, t ∈ globLanguage g → (g.map (GlobItem.weight w)).sum ≤ (t.map w).sum := by
  induction g with
  | nil =>
    intro t h
    rw [mem_globLanguage_nil.mp h]
    exact le_rfl
  | cons i g ih =>
    intro t h
    obtain ⟨a, ha, r, hr, rfl⟩ := mem_globLanguage_cons.mp h
    have hrest := ih hr
    rw [List.map_append, List.sum_append, List.map_cons, List.sum_cons]
    refine Nat.add_le_add ?_ hrest
    cases i with
    | many => exact Nat.zero_le _
    | one =>
      obtain ⟨b, rfl⟩ := mem_one.mp ha
      simpa [GlobItem.weight] using hw b
    | lit b =>
      obtain rfl := mem_lit.mp ha
      simp [GlobItem.weight]

end Languages

/-! ## Encodings -/

/-- The same item of another alphabet. -/
def GlobItem.map (f : α → β) : GlobItem α → GlobItem β
  | .many => .many
  | .one => .one
  | .lit a => .lit (f a)

/-- All characters of a glob are in `p`. -/
def GlobItem.Over (p : α → Prop) (i : GlobItem α) : Prop := ∀ a, i = .lit a → p a

/-- An encoding in which the characters of `p` have one symbol each, which no other character uses. -/
structure Encoding (p : α → Prop) (enc : α → List β) (f : α → β) : Prop where
  single : ∀ a, p a → enc a = [f a]
  own : ∀ a c, p a → f a ∈ enc c → c = a
  nonempty : ∀ c, enc c ≠ []

section Encode

variable {enc : α → List β} {f : α → β} {p : α → Prop}

/-- What is left of an encoded text begins at a character or inside of one. -/
theorem suffix_flatMap {r : List β} : ∀ {t : List α}, r <:+ t.flatMap enc →
    ∃ t', t' <:+ t ∧ (r = t'.flatMap enc ∨ ∃ c w, w <:+ enc c ∧ w ≠ [] ∧ w ≠ enc c ∧ r = w ++ t'.flatMap enc)
  | [], hr => ⟨[], List.suffix_rfl, .inl (List.suffix_nil.mp hr)⟩
  | c :: t, hr => by
    rw [List.flatMap_cons] at hr
    rcases suffix_append_cases hr with hr | ⟨w, hw, rfl⟩
    · obtain ⟨t', ht', h⟩ := suffix_flatMap hr
      exact ⟨t', ht'.trans (List.suffix_cons c t), h⟩
    · by_cases hnil : w = []
      · exact ⟨t, List.suffix_cons c t, .inl (by rw [hnil, List.nil_append])⟩
      · by_cases hfull : w = enc c
        · exact ⟨c :: t, List.suffix_rfl, .inl (by rw [hfull, List.flatMap_cons])⟩
        · exact ⟨t, List.suffix_cons c t, .inr ⟨c, w, hw, hnil, hfull, rfl⟩⟩

variable [DecidableEq β]

/-- A glob without `?` that matches what begins inside of a character begins with `*`, and matches what follows. -/
theorem globMatch_inside {g : List (GlobItem α)} (hg : ∀ i ∈ g, i.Over p ∧ i ≠ .one) {r : List β} :
    ∀ {w : List β}, w ≠ [] → (∀ a, p a → f a ∉ w) → globMatch (g.map (GlobItem.map f)) (w ++ r) = true →
      globMatch (g.map (GlobItem.map f)) r = true ∧ ∃ g', g = .many :: g' := by
  induction g with
  | nil =>
    intro w hne _ hm
    cases w with
    | nil => exact absurd rfl hne
    | cons b w => cases hm
  | cons i g ih =>
    intro w hne hno hm
    cases i with
    | many =>
      refine ⟨?_, g, rfl⟩
      simp only [List.map_cons, GlobItem.map] at hm ⊢
      rw [globMatch_many] at hm ⊢
      obtain ⟨r', hr', hm⟩ := hm
      rcases suffix_append_cases hr' with hr' | ⟨w', hw', rfl⟩
      · exact ⟨r', hr', hm⟩
      · by_cases hnil : w' = []
        · rw [hnil, List.nil_append] at hm
          exact ⟨r, List.suffix_rfl, hm⟩
        · have hinside := ih (fun j hj => hg j (List.mem_cons_of_mem _ hj)) hnil
            (fun a ha hin => hno a ha (hw'.subset hin)) hm
          exact ⟨r, List.suffix_rfl, hinside.1⟩
    | one => exact absurd rfl (hg .one List.mem_cons_self).2
    | lit a =>
      cases w with
      | nil => exact absurd rfl hne
      | cons b w =>
        have hab : f a ≠ b := by
          rintro rfl
          exact hno a ((hg _ List.mem_cons_self).1 a rfl) List.mem_cons_self
        simp [GlobItem.map, globMatch, hab] at hm

variable [DecidableEq α]

/-- A text of such characters is encoded character by character. -/
theorem globMatch_map (h : Encoding p enc f) {g : List (GlobItem α)} (hg : ∀ i ∈ g, i.Over p) :
    ∀ {t : List α}, (∀ c ∈ t, p c) → globMatch (g.map (GlobItem.map f)) (t.map f) = globMatch g t := by
  have hinj : ∀ a c, p a → p c → f a = f c → a = c := fun a c ha hc heq =>
    (h.own a c ha (by rw [h.single c hc, heq]; exact List.mem_singleton_self _)).symm
  induction g with
  | nil =>
    intro t _
    cases t <;> rfl
  | cons i g ih =>
    have ih := @ih fun j hj => hg j (List.mem_cons_of_mem _ hj)
    intro t ht
    cases i with
    | many =>
      rw [Bool.eq_iff_iff]
      simp only [List.map_cons, GlobItem.map]
      rw [globMatch_many, globMatch_many]
      constructor
      · rintro ⟨r, hr, hm⟩
        rw [List.suffix_iff_eq_drop, ← List.map_drop] at hr
        rw [hr, ih fun c hc => ht c (List.mem_of_mem_drop hc)] at hm
        exact ⟨_, List.drop_suffix _ t, hm⟩
      · rintro ⟨r, hr, hm⟩
        refine ⟨r.map f, hr.map f, ?_⟩
        rwa [ih fun c hc => ht c (hr.subset hc)]
    | one =>
      cases t with
      | nil => rfl
      | cons c t => exact ih fun c' hc' => ht c' (List.mem_cons_of_mem _ hc')
    | lit a =>
      have ha : p a := hg (.lit a) List.mem_cons_self a rfl
      cases t with
      | nil => rfl
      | cons c t =>
        have hc : p c := ht c List.mem_cons_self
        have hsame : decide (f a = f c) = decide (a = c) :=
          decide_eq_decide.mpr ⟨hinj a c ha hc, congrArg f⟩
        simp only [List.map_cons, GlobItem.map, globMatch]
        rw [hsame, ih fun c' hc' => ht c' (List.mem_cons_of_mem _ hc')]

/-- **A glob without `?` over such characters** matches the encoding of a text exactly when it matches the text. -/
theorem globMatch_encode (h : Encoding p enc f) {g : List (GlobItem α)} (hg : ∀ i ∈ g, i.Over p ∧ i ≠ .one) :
    ∀ t : List α, globMatch (g.map (GlobItem.map f)) (t.flatMap enc) = globMatch g t := by
  induction g with
  | nil =>
    intro t
    cases t with
    | nil => rfl
    | cons c t =>
      cases hc : enc c with
      | nil => exact absurd hc (h.nonempty c)
      | cons b bs =>
        rw [List.flatMap_cons, hc]
        rfl
  | cons i g ih =>
    have hrest : ∀ j ∈ g, j.Over p ∧ j ≠ .one := fun j hj => hg j (List.mem_cons_of_mem _ hj)
    have ih := ih hrest
    intro t
    cases i with
    | many =>
      rw [Bool.eq_iff_iff]
      simp only [List.map_cons, GlobItem.map]
      rw [globMatch_many, globMatch_many]
      constructor
      · rintro ⟨r, hr, hm⟩
        obtain ⟨t', ht', rfl | ⟨c, w, hw, hne, hfull, rfl⟩⟩ := suffix_flatMap hr
        · exact ⟨t', ht', by rwa [ih] at hm⟩
        · -- a character with more than one symbol is none of `p`
          have hno : ∀ a, p a → f a ∉ w := by
            intro a ha hin
            obtain rfl := h.own a c ha (hw.subset hin)
            rw [h.single c ha] at hw hfull
            rcases List.suffix_cons_iff.mp hw with hw | hw
            · exact hfull hw
            · exact hne (List.suffix_nil.mp hw)
          have hm' := (globMatch_inside hrest hne hno hm).1
          exact ⟨t', ht', by rwa [ih] at hm'⟩
      · rintro ⟨r, hr, hm⟩
        obtain ⟨l, rfl⟩ := hr
        refine ⟨r.flatMap enc, ?_, by rwa [ih]⟩
        rw [List.flatMap_append]
        exact List.suffix_append _ _
    | one => exact absurd rfl (hg .one List.mem_cons_self).2
    | lit a =>
      have ha : p a := (hg _ List.mem_cons_self).1 a rfl
      cases t with
      | nil => rfl
      | cons c t =>
        by_cases hca : c = a
        · subst hca
          rw [List.flatMap_cons, h.single c ha]
          simp [GlobItem.map, globMatch, ih t]
        · cases hc : enc c with
          | nil => exact absurd hc (h.nonempty c)
          | cons b bs =>
            have hab : f a ≠ b := by
              rintro rfl
              exact hca (h.own a c ha (hc ▸ List.mem_cons_self))
            rw [List.flatMap_cons, hc]
            simp [GlobItem.map, globMatch, hab, Ne.symm hca]

end Encode

end Eddyq.Lib
