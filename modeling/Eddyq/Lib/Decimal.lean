import Mathlib.Data.Int.Notation
import Mathlib.Data.List.DropRight
import Mathlib.Data.Nat.Basic
import Mathlib.Algebra.Order.Ring.Int
import Mathlib.Tactic.Ring

/-!
# Numbers as text

`decimal` writes an integer, `readInt` reads an integer token of JSON, which has no leading zero, no fraction and no
exponent, so that what it reads is a `decimal` (`readNat_eq_some`, `readInt_eq_some`). `g14` writes an integral double as
`%.14g` does: below `10^14` it is `decimal` (`g14_small`), and from there on it is rounded to 14 significant digits
(`round14`) and has an exponent, which `readInt` refuses (`readInt_g14_large`) and `readNumber` understands
(`readNumber_g14`).
-/

namespace Eddyq.Lib

/-! ## Digits -/

/-- A `-` before the text of a negative number. -/
def signed (n : ℤ) (digits : List Char) : List Char := if n < 0 then '-' :: digits else digits

/-- The decimal text of an integer. -/
def decimal (n : ℤ) : List Char := signed n (Nat.toDigits 10 n.natAbs)

/-- The digits of a token: at least one, and a leading zero only alone. -/
def readNat (l : List Char) : Option Nat :=
  if l ≠ [] ∧ l.all Char.isDigit ∧ (l.head? = some '0' → l.length = 1) then some (Nat.ofDigitChars 10 l 0) else none

/-- An integer token. `-0` is not one: it is a float. -/
def readInt : List Char → Option ℤ
  | '-' :: l => ((readNat l).filter (· ≠ 0)).map (fun n : Nat => -(n : ℤ))
  | l => (readNat l).map (fun n : Nat => (n : ℤ))

theorem isDigit_toDigits {n : Nat} {c : Char} (h : c ∈ Nat.toDigits 10 n) : c.isDigit = true :=
  Nat.isDigit_of_mem_toDigits (by decide) (by decide) h

theorem digitChar_sub_zero {c : Char} (h : c.isDigit = true) : Nat.digitChar (c.toNat - '0'.toNat) = c := by
  simp only [Char.isDigit, Bool.and_eq_true, decide_eq_true_eq, ge_iff_le] at h
  have h1 : '0'.toNat ≤ c.toNat := h.1
  have h2 : c.toNat ≤ '9'.toNat := h.2
  rw [show '0'.toNat = 48 from rfl] at h1 ⊢
  rw [show '9'.toNat = 57 from rfl] at h2
  apply Char.toNat_inj.mp
  obtain h | h | h | h | h | h | h | h | h | h : c.toNat = 48 ∨ c.toNat = 49 ∨ c.toNat = 50 ∨ c.toNat = 51 ∨
      c.toNat = 52 ∨ c.toNat = 53 ∨ c.toNat = 54 ∨ c.toNat = 55 ∨ c.toNat = 56 ∨ c.toNat = 57 := by omega
  all_goals rw [h]; rfl

theorem digit_lt_ten {c : Char} (h : c.isDigit = true) : c.toNat - '0'.toNat < 10 := by
  simp only [Char.isDigit, Bool.and_eq_true, decide_eq_true_eq, ge_iff_le] at h
  have h2 : c.toNat ≤ '9'.toNat := h.2
  rw [show '9'.toNat = 57 from rfl] at h2
  rw [show '0'.toNat = 48 from rfl]
  omega

/-- A zero leads only the digits of zero. -/
theorem head_toDigits (n : Nat) (h : (Nat.toDigits 10 n).head? = some '0') : n = 0 := by
  induction n using Nat.strongRecOn with
  | ind n ih =>
    by_cases hn : n < 10
    · rw [Nat.toDigits_of_lt_base hn] at h
      have hc : n.digitChar = '0' := Option.some.inj h
      rw [← Nat.toNat_digitChar_sub_48_of_lt_ten hn, hc]
      rfl
    · rw [Nat.toDigits_of_base_le (by decide) (not_lt.mp hn),
        List.head?_append_of_ne_nil _ Nat.toDigits_ne_nil] at h
      have := ih (n / 10) (by omega) h
      omega

/-- Digits without a leading zero are the digits of their value. -/
theorem toDigits_ofDigitChars {l : List Char} (hne : l ≠ []) (hd : l.all Char.isDigit)
    (hz : l.head? = some '0' → l.length = 1) : Nat.toDigits 10 (Nat.ofDigitChars 10 l 0) = l := by
  induction l using List.reverseRecOn with
  | nil => exact absurd rfl hne
  | append_singleton l c ih =>
    simp only [List.all_append, List.all_cons, List.all_nil, Bool.and_true, Bool.and_eq_true] at hd
    have hlt := digit_lt_ten hd.2
    rw [Nat.ofDigitChars_append, Nat.ofDigitChars_cons, Nat.ofDigitChars_nil]
    by_cases hl : l = []
    · subst hl
      rw [Nat.ofDigitChars_nil, Nat.mul_zero, Nat.zero_add, Nat.toDigits_of_lt_base hlt, digitChar_sub_zero hd.2]
      rfl
    · have hl0 : l.head? ≠ some '0' := fun h0 => by
        have := hz (by rw [List.head?_append_of_ne_nil _ hl]; exact h0)
        rw [List.length_append, List.length_singleton] at this
        exact hl (List.length_eq_zero_iff.mp (by omega))
      have ih := ih hl hd.1 (fun h0 => absurd h0 hl0)
      have hpos : 0 < Nat.ofDigitChars 10 l 0 := by
        refine Nat.pos_of_ne_zero fun h0 => hl0 ?_
        rw [h0] at ih
        rw [← ih]
        rfl
      rw [← Nat.toDigits_append_toDigits (by decide) hpos hlt, ih, Nat.toDigits_of_lt_base hlt,
        digitChar_sub_zero hd.2]

/-- **A token is the text of what it is read as.** -/
theorem readNat_eq_some {l : List Char} {n : Nat} : readNat l = some n ↔ l = Nat.toDigits 10 n := by
  unfold readNat
  constructor
  · intro h
    split at h
    · next hl =>
      rw [← Option.some.inj h, toDigits_ofDigitChars hl.1 hl.2.1 hl.2.2]
    · cases h
  · rintro rfl
    have hz : (Nat.toDigits 10 n).head? = some '0' → (Nat.toDigits 10 n).length = 1 := fun h0 => by
      rw [head_toDigits n h0]
      rfl
    rw [if_pos ⟨Nat.toDigits_ne_nil, List.all_eq_true.mpr fun c hc => isDigit_toDigits hc, hz⟩,
      Nat.ofDigitChars_ten_toDigits]

theorem toDigits_ne_minus (n : Nat) (l : List Char) : Nat.toDigits 10 n ≠ '-' :: l := fun h =>
  absurd (isDigit_toDigits (h ▸ List.mem_cons_self)) (by decide)

theorem readInt_toDigits (n : Nat) : readInt (Nat.toDigits 10 n) = some (n : ℤ) := by
  unfold readInt
  split
  · next l h => exact absurd h (toDigits_ne_minus n l)
  · rw [readNat_eq_some.mpr rfl, Option.map_some]

/-- An integer token is the text of what it is read as. -/
theorem readInt_eq_some {l : List Char} {n : ℤ} : readInt l = some n ↔ l = decimal n := by
  constructor
  · intro h
    unfold readInt at h
    split at h
    · next l =>
      obtain ⟨m, hm, rfl⟩ := Option.map_eq_some_iff.mp h
      obtain ⟨hm, h0⟩ := Option.filter_eq_some_iff.mp hm
      have h0 : m ≠ 0 := by simpa using h0
      rw [decimal, signed, if_pos (by omega), Int.natAbs_neg, Int.natAbs_natCast, readNat_eq_some.mp hm]
    · obtain ⟨m, hm, rfl⟩ := Option.map_eq_some_iff.mp h
      rw [decimal, signed, if_neg (by omega), Int.natAbs_natCast, readNat_eq_some.mp hm]
  · rintro rfl
    unfold decimal signed
    split
    · next hneg =>
      rw [readInt, readNat_eq_some.mpr rfl, Option.filter_some, if_pos (by simp; omega), Option.map_some,
        Option.some.injEq]
      omega
    · next hpos =>
      rw [readInt_toDigits, Option.some.injEq]
      omega

/-! ## Fourteen significant digits -/

/-- A number rounded to 14 significant digits, ties to even. -/
def round14 (m : Nat) : Nat :=
  if m < 10 ^ 14 then m
  else
    let scale := 10 ^ ((Nat.toDigits 10 m).length - 14)
    let q := m / scale
    let r := m % scale
    (if 2 * r > scale ∨ (2 * r = scale ∧ q % 2 = 1) then q + 1 else q) * scale

/-- The digits without the zeros at the end. -/
def significant (l : List Char) : List Char := l.rdropWhile (· = '0')

/-- `d.ddde+x` for the digits of a number; the point only before digits. -/
def scientific (l : List Char) : List Char :=
  match significant l with
  | [] => ['0']
  | d :: ds => d :: ((if ds = [] then [] else '.' :: ds) ++ 'e' :: '+' :: Nat.toDigits 10 (l.length - 1))

/-- `%.14g` of an integral double. -/
def g14 (n : ℤ) : List Char :=
  signed n (if n.natAbs < 10 ^ 14 then Nat.toDigits 10 n.natAbs else scientific (Nat.toDigits 10 (round14 n.natAbs)))

/-- The exponent of a number's text. -/
def readExponent : List Char → Nat
  | 'e' :: '+' :: ds => Nat.ofDigitChars 10 ds 0
  | _ => 0

/-- The value of `ddd`, `d.dddex` and the like, for texts of integers. -/
def readMagnitude (l : List Char) : Nat :=
  let mantissa := l.takeWhile (· ≠ 'e')
  let whole := mantissa.takeWhile (· ≠ '.')
  let fraction := (mantissa.dropWhile (· ≠ '.')).tail
  Nat.ofDigitChars 10 (whole ++ fraction) 0 * 10 ^ readExponent (l.dropWhile (· ≠ 'e')) / 10 ^ fraction.length

/-- `strtod` on the text of an integer. -/
def readNumber : List Char → ℤ
  | '-' :: l => -readMagnitude l
  | l => readMagnitude l

theorem g14_small {n : ℤ} (h : n.natAbs < 10 ^ 14) : g14 n = decimal n := by
  rw [g14, decimal, if_pos h]

theorem round14_small {m : Nat} (h : m < 10 ^ 14) : round14 m = m := if_pos h

/-- Rounding does not reach down to a smaller number of digits. -/
theorem round14_large {m : Nat} (h : 10 ^ 14 ≤ m) : 10 ^ 14 ≤ round14 m := by
  have hlen : 14 < (Nat.toDigits 10 m).length := by
    by_contra hle
    exact absurd ((Nat.length_toDigits_le_iff (by decide) (by decide)).mp (not_lt.mp hle)) (not_lt.mpr h)
  have hm : 10 ^ ((Nat.toDigits 10 m).length - 1) ≤ m := by
    by_contra hlt
    have := (Nat.length_toDigits_le_iff (b := 10) (by decide) (by omega)).mpr (not_le.mp hlt)
    omega
  rw [round14, if_neg (not_lt.mpr h)]
  dsimp only
  generalize hk : (Nat.toDigits 10 m).length - 14 = k
  have hpow : 10 ^ ((Nat.toDigits 10 m).length - 1) = 10 ^ 13 * 10 ^ k := by
    rw [← pow_add]
    congr 1
    omega
  have hq : 10 ^ 13 ≤ m / 10 ^ k := (Nat.le_div_iff_mul_le (Nat.pow_pos (by decide))).mpr (hpow ▸ hm)
  have hk1 : 10 ^ 1 ≤ 10 ^ k := Nat.pow_le_pow_right (by decide) (by omega)
  calc 10 ^ 14 = 10 ^ 13 * 10 ^ 1 := rfl
    _ ≤ (m / 10 ^ k) * 10 ^ k := Nat.mul_le_mul hq hk1
    _ ≤ _ := Nat.mul_le_mul_right _ (by split <;> omega)

/-- The digits that are left, and how many zeros are gone. -/
theorem significant_append (l : List Char) : ∃ z, l = significant l ++ List.replicate z '0' := by
  refine ⟨(l.rtakeWhile (· = '0')).length, ?_⟩
  have hzeros : l.rtakeWhile (· = '0') = List.replicate (l.rtakeWhile (· = '0')).length '0' :=
    List.eq_replicate_of_mem fun c hc => by simpa using List.mem_rtakeWhile_imp hc
  rw [← hzeros]
  exact List.rdropWhile_append_rtakeWhile.symm

/-- A number that is not zero has another digit. -/
theorem significant_ne_nil {n : Nat} (hn : n ≠ 0) : significant (Nat.toDigits 10 n) ≠ [] := by
  intro h
  obtain ⟨z, hz⟩ := significant_append (Nat.toDigits 10 n)
  have hval := Nat.ofDigitChars_ten_toDigits (n := n)
  rw [hz, h, List.nil_append, Nat.ofDigitChars_replicate_zero, Nat.mul_zero] at hval
  exact hn hval.symm

theorem ne_of_isDigit {c x : Char} (h : c.isDigit = true) (hx : x.isDigit = false) : c ≠ x := by
  rintro rfl
  rw [hx] at h
  cases h

/-- The parts of a text with an exponent. -/
theorem readMagnitude_parts {d : Char} {ds : List Char} (h : ∀ c ∈ d :: ds, c.isDigit = true) (x : Nat) :
    readMagnitude (d :: ((if ds = [] then [] else '.' :: ds) ++ 'e' :: '+' :: Nat.toDigits 10 x)) =
      Nat.ofDigitChars 10 (d :: ds) 0 * 10 ^ x / 10 ^ ds.length := by
  have hd : d ≠ '.' := ne_of_isDigit (h d List.mem_cons_self) rfl
  have hmant : ∀ c ∈ d :: (if ds = [] then [] else '.' :: ds), c ≠ 'e' := by
    intro c hc
    rcases List.mem_cons.mp hc with rfl | hc
    · exact ne_of_isDigit (h c List.mem_cons_self) rfl
    · split at hc
      · cases hc
      · rcases List.mem_cons.mp hc with rfl | hc
        · decide
        · exact ne_of_isDigit (h c (List.mem_cons_of_mem _ hc)) rfl
  have htake : (d :: ((if ds = [] then [] else '.' :: ds) ++ 'e' :: '+' :: Nat.toDigits 10 x)).takeWhile (· ≠ 'e') =
      d :: (if ds = [] then [] else '.' :: ds) := by
    rw [← List.cons_append, List.takeWhile_append_of_pos (by simpa using hmant), List.takeWhile_cons_of_neg (by simp),
      List.append_nil]
  have hdrop : (d :: ((if ds = [] then [] else '.' :: ds) ++ 'e' :: '+' :: Nat.toDigits 10 x)).dropWhile (· ≠ 'e') =
      'e' :: '+' :: Nat.toDigits 10 x := by
    rw [← List.cons_append, List.dropWhile_append_of_pos (by simpa using hmant), List.dropWhile_cons_of_neg (by simp)]
  have hwhole : (d :: (if ds = [] then [] else '.' :: ds)).takeWhile (· ≠ '.') = [d] := by
    rw [List.takeWhile_cons_of_pos (by simpa using hd)]
    split <;> simp
  have hfrac : ((d :: (if ds = [] then [] else '.' :: ds)).dropWhile (· ≠ '.')).tail = ds := by
    rw [List.dropWhile_cons_of_pos (by simpa using hd)]
    split
    · next h0 => rw [h0, List.dropWhile_nil, List.tail_nil]
    · rw [List.dropWhile_cons_of_neg (by simp), List.tail_cons]
  rw [readMagnitude, htake, hdrop, hwhole, hfrac, readExponent, Nat.ofDigitChars_ten_toDigits, List.singleton_append]

/-- A text with an exponent is read as the number. -/
theorem readMagnitude_scientific {n : Nat} (hn : n ≠ 0) : readMagnitude (scientific (Nat.toDigits 10 n)) = n := by
  have hval := Nat.ofDigitChars_ten_toDigits (n := n)
  have hdig : ∀ c ∈ Nat.toDigits 10 n, c.isDigit = true := fun c hc => isDigit_toDigits hc
  obtain ⟨z, hz⟩ := significant_append (Nat.toDigits 10 n)
  unfold scientific
  generalize Nat.toDigits 10 n = l at hval hdig hz ⊢
  generalize significant l = sig at hz ⊢
  subst hz
  rw [Nat.ofDigitChars_append, Nat.ofDigitChars_replicate_zero] at hval
  match sig with
  | [] =>
    rw [Nat.ofDigitChars_nil, Nat.mul_zero] at hval
    exact absurd hval.symm hn
  | d :: ds =>
    have hlen : (d :: ds ++ List.replicate z '0').length - 1 = z + ds.length := by
      simp only [List.length_append, List.length_cons, List.length_replicate]
      omega
    dsimp only
    rw [readMagnitude_parts (fun c hc => hdig c (List.mem_append_left _ hc)), hlen, pow_add, ← Nat.mul_assoc,
      Nat.mul_div_cancel _ (Nat.pow_pos (by decide)), Nat.mul_comm]
    exact hval

theorem readMagnitude_toDigits (n : Nat) : readMagnitude (Nat.toDigits 10 n) = n := by
  have hdig : ∀ c ∈ Nat.toDigits 10 n, c.isDigit = true := fun c hc => isDigit_toDigits hc
  have hall : ∀ x : Char, x.isDigit = false → (Nat.toDigits 10 n).takeWhile (· ≠ x) = Nat.toDigits 10 n ∧
      (Nat.toDigits 10 n).dropWhile (· ≠ x) = [] := fun x hx =>
    ⟨List.takeWhile_eq_self_iff.mpr fun c hc => by simpa using ne_of_isDigit (hdig c hc) hx,
      List.dropWhile_eq_nil_iff.mpr fun c hc => by simpa using ne_of_isDigit (hdig c hc) hx⟩
  rw [readMagnitude, (hall 'e' rfl).1, (hall 'e' rfl).2, (hall '.' rfl).1, (hall '.' rfl).2]
  rw [List.tail_nil, List.append_nil, Nat.ofDigitChars_ten_toDigits, readExponent, List.length_nil]
  · rw [Nat.pow_zero, Nat.mul_one, Nat.div_one]
  · exact fun _ h => nomatch h

/-- Neither form starts with a sign. -/
theorem magnitude_ne_minus (m : Nat) (l : List Char) :
    (if m < 10 ^ 14 then Nat.toDigits 10 m else scientific (Nat.toDigits 10 (round14 m))) ≠ '-' :: l := by
  split
  · exact toDigits_ne_minus m l
  · obtain ⟨z, hz⟩ := significant_append (Nat.toDigits 10 (round14 m))
    unfold scientific
    cases hs : significant (Nat.toDigits 10 (round14 m)) with
    | nil => exact fun h => absurd (List.cons.inj h).1 (by decide)
    | cons d ds =>
      have hd : d.isDigit = true := isDigit_toDigits (by rw [hz, hs]; exact List.mem_cons_self)
      exact fun h => ne_of_isDigit hd rfl (List.cons.inj h).1

theorem readNumber_signed {n : ℤ} {body : List Char} (h : ∀ l, body ≠ '-' :: l) :
    readNumber (signed n body) = if n < 0 then -(readMagnitude body : ℤ) else readMagnitude body := by
  unfold signed
  split
  · rfl
  · unfold readNumber
    split
    · next l => exact absurd rfl (h l)
    · rfl

theorem readNumber_decimal (n : ℤ) : readNumber (decimal n) = n := by
  rw [decimal, readNumber_signed (toDigits_ne_minus _), readMagnitude_toDigits]
  split <;> omega

/-- **What `%.14g` writes is read as the rounded number.** -/
theorem readNumber_g14 (n : ℤ) : readNumber (g14 n) = n.sign * round14 n.natAbs := by
  have hmag : readMagnitude (if n.natAbs < 10 ^ 14 then Nat.toDigits 10 n.natAbs
      else scientific (Nat.toDigits 10 (round14 n.natAbs))) = round14 n.natAbs := by
    split
    · next h => rw [readMagnitude_toDigits, round14_small h]
    · next h => exact readMagnitude_scientific (by have := round14_large (not_lt.mp h); omega)
  rw [g14, readNumber_signed (magnitude_ne_minus _), hmag]
  split
  · next hneg => rw [Int.sign_eq_neg_one_of_neg hneg, neg_one_mul]
  · next hpos =>
    rcases Int.lt_or_eq_of_le (not_lt.mp hpos) with h | h
    · rw [Int.sign_eq_one_of_pos h, one_mul]
    · rw [← h]
      rfl

/-- An integer rounded to 14 significant digits. -/
def rounded14 (n : ℤ) : ℤ := n.sign * round14 n.natAbs

theorem rounded14_small {n : ℤ} (h : n.natAbs < 10 ^ 14) : rounded14 n = n := by
  rw [rounded14, round14_small h, Int.sign_mul_natAbs]

theorem natAbs_rounded14 (n : ℤ) : (rounded14 n).natAbs = round14 n.natAbs := by
  by_cases h : n = 0
  · subst h
    rfl
  · rw [rounded14, Int.natAbs_mul, Int.natAbs_sign_of_ne_zero h, one_mul, Int.natAbs_natCast]

theorem rounded14_neg_iff {n : ℤ} : rounded14 n < 0 ↔ n < 0 := by
  by_cases h : n.natAbs < 10 ^ 14
  · rw [rounded14_small h]
  · have hpos : (0 : ℤ) < round14 n.natAbs := by exact_mod_cast lt_of_lt_of_le (by decide) (round14_large (not_lt.mp h))
    rw [rounded14, ← Int.sign_eq_neg_one_iff_neg, Int.sign_mul, Int.sign_sign, Int.sign_eq_one_of_pos hpos, mul_one,
      Int.sign_eq_neg_one_iff_neg]

/-- **Two numbers have one text** if and only if they are the same after rounding. -/
theorem g14_eq_iff {m n : ℤ} : g14 m = g14 n ↔ rounded14 m = rounded14 n := by
  have hform : ∀ k : ℤ, g14 k = signed (rounded14 k) (if (rounded14 k).natAbs < 10 ^ 14 then Nat.toDigits 10 (rounded14 k).natAbs
      else scientific (Nat.toDigits 10 (rounded14 k).natAbs)) := by
    intro k
    by_cases h : k.natAbs < 10 ^ 14
    · rw [rounded14_small h, g14, if_pos h, if_pos h]
    · have hlarge : ¬ (rounded14 k).natAbs < 10 ^ 14 := by
        rw [natAbs_rounded14]
        exact not_lt.mpr (round14_large (not_lt.mp h))
      rw [g14, if_neg h, if_neg hlarge, natAbs_rounded14]
      simp only [signed, rounded14_neg_iff]
  refine ⟨fun h => ?_, fun h => by rw [hform, hform, h]⟩
  rw [rounded14, rounded14, ← readNumber_g14, h, readNumber_g14]

/-- From `10^14` on, there is an exponent. -/
theorem exponent_mem_g14 {n : ℤ} (h : 10 ^ 14 ≤ n.natAbs) : 'e' ∈ g14 n := by
  have hbody : 'e' ∈ scientific (Nat.toDigits 10 (round14 n.natAbs)) := by
    unfold scientific
    split
    · next hs => exact absurd hs (significant_ne_nil (by have := round14_large h; omega))
    · exact List.mem_cons_of_mem _ (List.mem_append_right _ List.mem_cons_self)
  unfold g14 signed
  rw [if_neg (not_lt.mpr h)]
  split
  · exact List.mem_cons_of_mem _ hbody
  · exact hbody

/-- **An exponent is no part of an integer token.** -/
theorem readInt_g14_large {n : ℤ} (h : 10 ^ 14 ≤ n.natAbs) : readInt (g14 n) = none := by
  have he := exponent_mem_g14 h
  rw [Option.eq_none_iff_forall_ne_some]
  intro a ha
  rw [readInt_eq_some.mp ha, decimal, signed] at he
  split at he
  · rcases List.mem_cons.mp he with he | he
    · exact absurd he (by decide)
    · exact absurd (isDigit_toDigits he) (by decide)
  · exact absurd (isDigit_toDigits he) (by decide)

end Eddyq.Lib
