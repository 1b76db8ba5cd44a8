import Mathlib.Data.List.Sort
import Mathlib.Data.String.Basic
import Mathlib.Data.List.Lex
import Mathlib.Order.Basic

/-!
# Sorted sets

A sorted set gives each of its members an integer score and lists them by score, members of one score by their
text (`entryLe`). The structure `ZSet` carries the order and the distinctness of the members as fields, so that
every value is a sorted set. The score of a member (`score?`) determines what the operations do: `score?_add`,
`score?_rem`. The ranges are lists of members (`mem_of_mem_range`, `mem_of_mem_rangeByScore`) without repetition
(`nodup_range`, `nodup_rangeByScore`).
-/

namespace Eddyq.Lib

/-- Members of sorted sets are compared by their text. -/
class ZMember (α : Type) where
  /-- The text of a member. -/
  text : α → String
  /-- Different members have different texts. -/
  text_inj : Function.Injective text

instance : ZMember String := ⟨id, fun _ _ h => h⟩

theorem repr_injective : Function.Injective Nat.repr := by
  intro a b h
  have hd : Nat.toDigits 10 a = Nat.toDigits 10 b := by
    rw [← Nat.toList_repr, ← Nat.toList_repr, h]
  rw [← Nat.ofDigitChars_ten_toDigits (n := a), hd, Nat.ofDigitChars_ten_toDigits]

/-- Two lists of one length that differ stay in their order when something is put behind them. -/
theorem lt_append_of_lt {γ : Type*} [LinearOrder γ] {l l' : List γ} (hlen : l.length = l'.length) (h : l < l')
    (r r' : List γ) : l ++ r < l' ++ r' := by
  induction l generalizing l' with
  | nil =>
    cases l' with
    | nil => exact absurd h (lt_irrefl _)
    | cons y ys => simp at hlen
  | cons x xs ih =>
    cases l' with
    | nil => simp at hlen
    | cons y ys =>
      rw [List.cons_append, List.cons_append]
      rcases List.cons_lt_cons_iff.mp h with hxy | ⟨rfl, hrest⟩
      · exact List.cons_lt_cons_iff.mpr (.inl hxy)
      · refine List.cons_lt_cons_iff.mpr (.inr ⟨rfl, ih ?_ hrest⟩)
        simpa using hlen

theorem digitChar_lt {a b : Nat} (h : a < b) (hb : b < 10) : a.digitChar < b.digitChar := by
  have hlt : a.digitChar.toNat < b.digitChar.toNat := by
    rw [Nat.toNat_digitChar_of_lt_ten hb, Nat.toNat_digitChar_of_lt_ten (h.trans hb)]
    omega
  exact hlt

/-- Decimal texts of one length are in the order of the numbers. -/
theorem toDigits_lt {a b : Nat} (h : a < b) (hlen : (Nat.toDigits 10 a).length = (Nat.toDigits 10 b).length) :
    Nat.toDigits 10 a < Nat.toDigits 10 b := by
  induction b using Nat.strongRecOn generalizing a with
  | ind b ih =>
    by_cases hb : b < 10
    · rw [Nat.toDigits_of_lt_base hb, Nat.toDigits_of_lt_base (h.trans hb)]
      exact List.cons_lt_cons_iff.mpr (.inl (digitChar_lt h hb))
    · have hb' := Nat.toDigits_of_base_le (by decide) (not_lt.mp hb)
      by_cases ha : a < 10
      · -- one digit against at least two
        rw [Nat.toDigits_of_lt_base ha, hb', List.length_append] at hlen
        have hpos : 0 < (Nat.toDigits 10 (b / 10)).length := Nat.length_toDigits_pos
        simp at hlen
      · rw [hb', Nat.toDigits_of_base_le (by decide) (not_lt.mp ha)] at hlen ⊢
        have hlen' : (Nat.toDigits 10 (a / 10)).length = (Nat.toDigits 10 (b / 10)).length := by simpa using hlen
        rcases lt_or_eq_of_le (Nat.div_le_div_right (c := 10) h.le) with hdiv | hdiv
        · exact lt_append_of_lt hlen' (ih (b / 10) (by omega) hdiv hlen') _ _
        · rw [hdiv]
          refine List.append_left_lt (List.cons_lt_cons_iff.mpr (.inl (digitChar_lt ?_ (Nat.mod_lt _ (by decide)))))
          omega

theorem le_of_repr_le {a b : Nat} (hlen : a.repr.length = b.repr.length) (h : a.repr ≤ b.repr) : a ≤ b := by
  by_contra hlt
  have hd : Nat.toDigits 10 b < Nat.toDigits 10 a := by
    refine toDigits_lt (not_le.mp hlt) ?_
    rw [← Nat.toList_repr, ← Nat.toList_repr, String.length_toList, String.length_toList, hlen]
  rw [← Nat.toList_repr, ← Nat.toList_repr, ← String.lt_iff_toList_lt] at hd
  exact absurd h (not_le.mpr hd)

/-- Numbers as members: their decimal text, so that `10` comes before `9`. -/
instance : ZMember Nat := ⟨Nat.repr, repr_injective⟩

variable {α : Type} [ZMember α]

/-- By score, then by text. -/
def entryLe (a b : ℤ × α) : Prop := a.1 < b.1 ∨ (a.1 = b.1 ∧ ZMember.text a.2 ≤ ZMember.text b.2)

instance : DecidableRel (entryLe (α := α)) := fun a b =>
  inferInstanceAs (Decidable (a.1 < b.1 ∨ (a.1 = b.1 ∧ ZMember.text a.2 ≤ ZMember.text b.2)))

theorem entryLe_total (a b : ℤ × α) : entryLe a b ∨ entryLe b a := by
  rcases lt_trichotomy a.1 b.1 with h | h | h
  · exact Or.inl (Or.inl h)
  · rcases le_total (ZMember.text a.2) (ZMember.text b.2) with ht | ht
    · exact Or.inl (Or.inr ⟨h, ht⟩)
    · exact Or.inr (Or.inr ⟨h.symm, ht⟩)
  · exact Or.inr (Or.inl h)

theorem entryLe_trans {a b c : ℤ × α} (h : entryLe a b) (h' : entryLe b c) : entryLe a c := by
  rcases h with h | ⟨h, ht⟩ <;> rcases h' with h' | ⟨h', ht'⟩
  · exact Or.inl (h.trans h')
  · exact Or.inl (h' ▸ h)
  · exact Or.inl (h ▸ h')
  · exact Or.inr ⟨h.trans h', ht.trans ht'⟩

/-- The order of entries is that of their scores, first of all. -/
theorem entryLe_score {a b : ℤ × α} (h : entryLe a b) : a.1 ≤ b.1 := h.elim le_of_lt (fun h => h.1.le)

instance : Std.Total (entryLe (α := α)) := ⟨entryLe_total⟩
instance : IsTrans (ℤ × α) entryLe := ⟨fun _ _ _ => entryLe_trans⟩

variable (α) in
/-- A sorted set. -/
structure ZSet where
  /-- The entries in order. -/
  entries : List (ℤ × α)
  /-- They are in order. -/
  sorted : entries.Pairwise entryLe
  /-- No member has two scores. -/
  nodup : (entries.map Prod.snd).Nodup

namespace ZSet

/-- The empty set. -/
def empty : ZSet α := ⟨[], .nil, List.nodup_nil⟩

instance : Inhabited (ZSet α) := ⟨empty⟩

/-- The members in order. -/
def members (z : ZSet α) : List α := z.entries.map Prod.snd

/-- How many members there are. -/
def card (z : ZSet α) : Nat := z.entries.length

/-- The members at the ranks `start`, …, `start + n - 1`. -/
def range (z : ZSet α) (start n : Nat) : List α := (z.members.drop start).take n

/-- The same by rank from the last. -/
def revRange (z : ZSet α) (start n : Nat) : List α := (z.members.reverse.drop start).take n

/-- The first `n` members whose score passes the test. -/
def rangeByScore (z : ZSet α) (p : ℤ → Bool) (n : Nat) : List α :=
  ((z.entries.filter (fun e => p e.1)).map Prod.snd).take n

theorem nodup_range (z : ZSet α) (start n : Nat) : (z.range start n).Nodup :=
  z.nodup.sublist ((List.take_sublist _ _).trans (List.drop_sublist _ _))

theorem nodup_rangeByScore (z : ZSet α) (p : ℤ → Bool) (n : Nat) : (z.rangeByScore p n).Nodup :=
  z.nodup.sublist ((List.take_sublist _ _).trans (List.Sublist.map _ List.filter_sublist))

/-- The entries up to a score come first. -/
theorem filter_eq_take (z : ZSet α) {p : ℤ → Bool} (hp : ∀ a b, a ≤ b → p b → p a) :
    z.entries.filter (fun e => p e.1) = z.entries.take (z.entries.countP (fun e => p e.1)) := by
  have hsorted := z.sorted
  generalize z.entries = l at hsorted
  induction l with
  | nil => rfl
  | cons e l ih =>
    rw [List.pairwise_cons] at hsorted
    by_cases he : p e.1
    · simp only [List.filter_cons, List.countP_cons, he, if_true, List.take_succ_cons, ih hsorted.2]
    · have hrest : ∀ x ∈ l, ¬ p x.1 := fun x hx hpx => he (hp _ _ (entryLe_score (hsorted.1 x hx)) hpx)
      simp only [List.filter_cons, List.countP_cons, he, Bool.false_eq_true, if_false,
        List.filter_eq_nil_iff.mpr hrest, List.countP_eq_zero.mpr hrest, Nat.add_zero, List.take_zero]

/-- How many of them are left when the first entries are gone. -/
theorem countP_drop (z : ZSet α) {p : ℤ → Bool} (hp : ∀ a b, a ≤ b → p b → p a) (n : Nat) :
    (z.entries.drop n).countP (fun e => p e.1) = z.entries.countP (fun e => p e.1) - n := by
  have hsorted := z.sorted
  generalize z.entries = l at hsorted
  induction l generalizing n with
  | nil => simp
  | cons e l ih =>
    rw [List.pairwise_cons] at hsorted
    cases n with
    | zero => rfl
    | succ n =>
      rw [List.drop_succ_cons, ih n hsorted.2, List.countP_cons]
      by_cases he : p e.1
      · simp only [he, if_true]
        omega
      · have hrest : l.countP (fun x => p x.1) = 0 :=
          List.countP_eq_zero.mpr fun x hx hpx => he (hp _ _ (entryLe_score (hsorted.1 x hx)) hpx)
        simp [hrest, he]

variable [DecidableEq α]

/-- The score of a member. -/
def score? (z : ZSet α) (m : α) : Option ℤ := (z.entries.find? (fun e => e.2 = m)).map Prod.fst

/-- Take a member out. -/
def rem (z : ZSet α) (m : α) : ZSet α where
  entries := z.entries.filter (fun e => e.2 ≠ m)
  sorted := z.sorted.filter _
  nodup := z.nodup.sublist (List.Sublist.map _ List.filter_sublist)

/-- Put a member in with a score, or change its score. -/
def add (z : ZSet α) (sc : ℤ) (m : α) : ZSet α where
  entries := (z.rem m).entries.orderedInsert entryLe (sc, m)
  sorted := (z.rem m).sorted.orderedInsert _ _
  nodup := by
    have hp := (List.perm_orderedInsert entryLe (sc, m) (z.rem m).entries).map Prod.snd
    rw [hp.nodup_iff, List.map_cons, List.nodup_cons]
    refine ⟨fun h => ?_, (z.rem m).nodup⟩
    obtain ⟨e, he, hm⟩ := List.mem_map.mp h
    simp only [rem, List.mem_filter] at he
    simp [hm] at he

/-! ## Scores -/

theorem mem_entries_iff {z : ZSet α} {sc : ℤ} {m : α} : (sc, m) ∈ z.entries ↔ z.score? m = some sc := by
  obtain ⟨l, _, hn⟩ := z
  unfold score?
  simp only
  induction l with
  | nil => simp
  | cons e l ih =>
    rw [List.map_cons, List.nodup_cons] at hn
    rw [List.mem_cons, List.find?_cons]
    by_cases he : e.2 = m
    · have hl : (sc, m) ∉ l := fun h => hn.1 (he ▸ List.mem_map_of_mem (f := Prod.snd) h)
      simp [he, hl, Prod.ext_iff, eq_comm]
    · have hne : (sc, m) ≠ e := fun h => he (by rw [← h])
      have ht := List.Pairwise.of_cons ‹List.Pairwise entryLe (e :: l)›
      simp [he, hne, ih ht hn.2]

/-- The members are those with a score. -/
theorem mem_members {z : ZSet α} {m : α} : m ∈ z.members ↔ (z.score? m).isSome := by
  simp only [members, List.mem_map, Prod.exists, mem_entries_iff, Option.isSome_iff_exists]
  constructor
  · rintro ⟨sc, m', h, rfl⟩
    exact ⟨sc, h⟩
  · rintro ⟨sc, h⟩
    exact ⟨sc, m, h, rfl⟩

theorem score?_eq_iff {z z' : ZSet α} {m m' : α}
    (h : ∀ sc, (sc, m) ∈ z.entries ↔ (sc, m') ∈ z'.entries) : z.score? m = z'.score? m' := by
  apply Option.ext
  intro sc
  rw [← mem_entries_iff, ← mem_entries_iff]
  exact h sc

@[simp]
theorem score?_empty (m : α) : (empty : ZSet α).score? m = none := rfl

@[simp]
theorem score?_rem (z : ZSet α) (m m' : α) : (z.rem m).score? m' = if m' = m then none else z.score? m' := by
  split
  · next h =>
    rw [Option.eq_none_iff_forall_ne_some]
    intro sc hsc
    rw [← mem_entries_iff, rem, List.mem_filter] at hsc
    simp [h] at hsc
  · next h =>
    apply score?_eq_iff
    intro sc
    simp [rem, h]

@[simp]
theorem score?_add (z : ZSet α) (sc : ℤ) (m m' : α) :
    (z.add sc m).score? m' = if m' = m then some sc else z.score? m' := by
  have hmem : ∀ sc' x, (sc', x) ∈ (z.add sc m).entries ↔ (sc', x) = (sc, m) ∨ (sc', x) ∈ (z.rem m).entries :=
    fun sc' x => List.mem_orderedInsert entryLe
  split
  · next h =>
    subst h
    rw [← mem_entries_iff, hmem]
    exact Or.inl rfl
  · next h =>
    rw [show z.score? m' = (z.rem m).score? m' by simp [h]]
    apply score?_eq_iff
    intro sc'
    simp [hmem, h]

theorem members_rem (z : ZSet α) (m : α) : (z.rem m).members = z.members.filter (· ≠ m) := by
  rw [members, members, List.filter_map]
  rfl

/-- What is left of the entries when the first ones are taken out. -/
theorem entries_drop (z : ZSet α) (n : Nat) :
    z.entries.filter (fun e => e.2 ∉ z.members.take n) = z.entries.drop n := by
  have hnd : z.members.Nodup := z.nodup
  rw [← List.take_append_drop n z.members] at hnd
  have hsplit := List.nodup_append'.mp hnd
  have hleft : (z.entries.take n).filter (fun e => e.2 ∉ z.members.take n) = [] := by
    refine List.filter_eq_nil_iff.mpr (fun e he => ?_)
    have hin : e.2 ∈ z.members.take n := by
      rw [members, ← List.map_take]
      exact List.mem_map_of_mem he
    simp [hin]
  have hright : (z.entries.drop n).filter (fun e => e.2 ∉ z.members.take n) = z.entries.drop n := by
    refine List.filter_eq_self.mpr (fun e he => decide_eq_true (fun hin => ?_))
    refine hsplit.2.2 hin ?_
    rw [members, ← List.map_drop]
    exact List.mem_map_of_mem he
  conv_lhs => rw [← List.take_append_drop n z.entries, List.filter_append]
  rw [hleft, hright, List.nil_append]

/-- What is left of the members when the first ones are taken out. -/
theorem members_drop (z : ZSet α) (n : Nat) : z.members.filter (· ∉ z.members.take n) = z.members.drop n := by
  have h := congrArg (List.map Prod.snd) (entries_drop z n)
  rw [List.map_drop] at h
  rw [← members] at h
  rw [← h, members, List.filter_map]
  rfl

/-! ## Sizes -/

/-- Putting a member in adds at most one. -/
theorem card_add_le (z : ZSet α) (sc : ℤ) (m : α) : (z.add sc m).card ≤ z.card + 1 := by
  have hrem : (z.rem m).entries.length ≤ z.entries.length := List.length_filter_le _ _
  have hins : (z.add sc m).entries.length = (z.rem m).entries.length + 1 := List.orderedInsert_length _ _ _
  unfold card
  omega

/-- Putting a new member in adds one. -/
theorem card_add_new {z : ZSet α} {m : α} (h : z.score? m = none) (sc : ℤ) : (z.add sc m).card = z.card + 1 := by
  have hrem : (z.rem m).entries = z.entries := by
    refine List.filter_eq_self.mpr (fun e he => decide_eq_true fun hm => ?_)
    have := mem_members.mp (List.mem_map_of_mem (f := Prod.snd) he)
    rw [hm, h] at this
    cases this
  have hins : (z.add sc m).entries.length = (z.rem m).entries.length + 1 := List.orderedInsert_length _ _ _
  rw [hrem] at hins
  exact hins

/-! ## Members of ranges -/

theorem mem_of_mem_range {z : ZSet α} {start n : Nat} {m : α} (h : m ∈ z.range start n) :
    (z.score? m).isSome :=
  mem_members.mp (List.mem_of_mem_drop (List.mem_of_mem_take h))

theorem mem_of_mem_rangeByScore {z : ZSet α} {p : ℤ → Bool} {n : Nat} {m : α} (h : m ∈ z.rangeByScore p n) :
    ∃ sc, z.score? m = some sc ∧ p sc = true := by
  obtain ⟨⟨sc, m'⟩, he, rfl⟩ := List.mem_map.mp (List.mem_of_mem_take h)
  rw [List.mem_filter] at he
  exact ⟨sc, mem_entries_iff.mp he.1, he.2⟩

end ZSet

end Eddyq.Lib
