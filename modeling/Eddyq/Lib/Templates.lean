import Mathlib.Data.List.Basic
import Mathlib.Data.List.Infix
import Mathlib.Data.List.Pairwise

/-!
# Texts with a hole

A template is a text with one hole and the symbols that may stand there; without any it is a fixed text. Two templates are apart
when their fixed parts cannot meet at one of the ends, or when one has a fixed symbol where only its hole is left of the other and
the hole does not allow it. Apart templates have no text in common (`fill_ne`), so that a text of templates that are apart from each other
is read in one way only (`Unambiguous.read`).
-/

namespace Eddyq.Lib

universe u

variable {α : Type u}

/-- A text before the hole, a text after it, and what may stand in it. -/
structure Template (α : Type u) where
  head : List α
  tail : List α
  allowed : α → Bool

namespace Template

/-- The text with the hole filled. -/
def fill (t : Template α) (x : List α) : List α := t.head ++ x ++ t.tail

/-- What may fill the hole. -/
def Fits (t : Template α) (x : List α) : Prop := ∀ a ∈ x, t.allowed a = true

/-- The filling can be read from the text. -/
theorem fill_inj {t : Template α} {x y : List α} (h : t.fill x = t.fill y) : x = y :=
  List.append_cancel_left (List.append_cancel_right h)

/-- The fixed symbols of `t'` next to the hole of `t`, where `t'` goes on at both ends. -/
def overhang (t t' : Template α) : List α :=
  t'.head.drop t.head.length ++ t'.tail.take (t'.tail.length - t.tail.length)

section Ends

variable {t t' : Template α} {x x' : List α}

/-- The heads of one text agree as far as both go. -/
theorem heads_meet (h : t.fill x = t'.fill x') : t.head <+: t'.head ∨ t'.head <+: t.head := by
  have hpre : t.head <+: t.fill x := ⟨x ++ t.tail, (List.append_assoc ..).symm⟩
  have hpre' : t'.head <+: t.fill x := h ▸ ⟨x' ++ t'.tail, (List.append_assoc ..).symm⟩
  exact List.prefix_or_prefix_of_prefix hpre hpre'

theorem tails_meet (h : t.fill x = t'.fill x') : t.tail <:+ t'.tail ∨ t'.tail <:+ t.tail := by
  have hsuf : t.tail <:+ t.fill x := List.suffix_append _ _
  have hsuf' : t'.tail <:+ t.fill x := h ▸ List.suffix_append _ _
  exact List.suffix_or_suffix_of_suffix hsuf hsuf'

/-- A filling holds the overhang. -/
theorem overhang_subset (hhead : t.head <+: t'.head) (htail : t.tail <:+ t'.tail) (h : t.fill x = t'.fill x') :
    t.overhang t' ⊆ x := by
  obtain ⟨u, hu⟩ := hhead
  obtain ⟨v, hv⟩ := htail
  have hover : t.overhang t' = u ++ v := by
    rw [overhang, ← hu, ← hv, List.drop_left, List.length_append, Nat.add_sub_cancel, List.take_left]
  have hx : x = u ++ x' ++ v := by
    refine fill_inj (t := t) (h.trans ?_)
    simp only [fill, ← hu, ← hv, List.append_assoc]
  rw [hover, hx]
  intro a ha
  rcases List.mem_append.mp ha with ha | ha
  · exact List.mem_append_left _ (List.mem_append_left _ ha)
  · exact List.mem_append_right _ ha

end Ends

section Apart

variable [DecidableEq α] {t t' : Template α} {x x' : List α}

/-- The hole of `t` has no place for the symbols that `t'` has there. -/
def blocks (t t' : Template α) : Bool :=
  t.head.isPrefixOf t'.head && t.tail.isSuffixOf t'.tail && (t.overhang t').any (fun a => !t.allowed a)

/-- No text is of both forms. -/
def apart (t t' : Template α) : Bool :=
  !(t.head.isPrefixOf t'.head || t'.head.isPrefixOf t.head) ||
    !(t.tail.isSuffixOf t'.tail || t'.tail.isSuffixOf t.tail) || t.blocks t' || t'.blocks t

theorem not_blocks (hx : t.Fits x) (h : t.fill x = t'.fill x') : t.blocks t' = false := by
  rw [Bool.eq_false_iff]
  intro hblocks
  simp only [blocks, Bool.and_eq_true, List.isPrefixOf_iff_prefix, List.isSuffixOf_iff_suffix, List.any_eq_true] at hblocks
  obtain ⟨⟨hhead, htail⟩, a, ha, hno⟩ := hblocks
  rw [hx a (overhang_subset hhead htail h ha)] at hno
  exact absurd hno (by decide)

/-- **Templates that are apart** have no text in common. -/
theorem fill_ne (h : t.apart t' = true) (hx : t.Fits x) (hx' : t'.Fits x') : t.fill x ≠ t'.fill x' := by
  intro heq
  have hheads := heads_meet heq
  have htails := tails_meet heq
  rw [← List.isPrefixOf_iff_prefix, ← List.isPrefixOf_iff_prefix] at hheads
  rw [← List.isSuffixOf_iff_suffix, ← List.isSuffixOf_iff_suffix] at htails
  simp only [apart, Bool.or_eq_true, not_blocks hx heq, not_blocks hx' heq.symm, Bool.not_eq_true', Bool.or_eq_false_iff,
    Bool.false_eq_true, or_false] at h
  rcases h with ⟨h, h'⟩ | ⟨h, h'⟩
  · rcases hheads with hhead | hhead
    · exact absurd (h.symm.trans hhead) (by decide)
    · exact absurd (h'.symm.trans hhead) (by decide)
  · rcases htails with htail | htail
    · exact absurd (h.symm.trans htail) (by decide)
    · exact absurd (h'.symm.trans htail) (by decide)

theorem apart_comm : t.apart t' = t'.apart t := by
  rw [apart, apart, Bool.or_comm (t.head.isPrefixOf _), Bool.or_comm (t.tail.isSuffixOf _), Bool.or_assoc,
    Bool.or_comm (t.blocks _), ← Bool.or_assoc]

/-- The templates of a list are apart from each other. -/
def Unambiguous {ι : Type*} (T : ι → Template α) (l : List ι) : Prop := l.Pairwise fun i j => (T i).apart (T j) = true

instance {ι : Type*} (T : ι → Template α) (l : List ι) : Decidable (Unambiguous T l) :=
  inferInstanceAs (Decidable (l.Pairwise _))

/-- **A text of such a list** has one template and one filling. -/
theorem Unambiguous.read {ι : Type*} {T : ι → Template α} {l : List ι} (h : Unambiguous T l) {i j : ι} (hi : i ∈ l) (hj : j ∈ l)
    (hx : (T i).Fits x) (hx' : (T j).Fits x') (heq : (T i).fill x = (T j).fill x') : i = j ∧ x = x' := by
  by_cases hij : i = j
  · subst hij
    exact ⟨rfl, fill_inj heq⟩
  · have hsymm : Std.Symm fun i j => (T i).apart (T j) = true := ⟨fun _ _ ha => apart_comm.trans ha⟩
    exact absurd heq (fill_ne (List.Pairwise.forall h hi hj hij) hx hx')

end Apart

end Template

end Eddyq.Lib
