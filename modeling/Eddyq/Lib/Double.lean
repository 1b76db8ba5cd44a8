import Eddyq.Lib.Json
import Eddyq.Lib.Decimal
import Mathlib.Algebra.Order.Round
import Mathlib.Data.Int.Log
import Mathlib.Data.Rat.Floor
import Mathlib.Tactic.Linarith
import Mathlib.Tactic.Positivity

/-!
# Doubles as text

A finite double is a rational (`Double`), and a positive rational is rounded to the nearest one by `toDouble`, ties to even.
`Number::toString` of ECMAScript writes a double with the fewest digits that round to it (`shortest`), as an integer, with a
point or with an exponent (`numberText`). Whole numbers below `2^53` are written with their own digits
(`numberText_natCast`), and a double that is written with the digits of its nearest natural number is that number
(`natCast_of_numberText`).

`nearest` is the double of an integer, for what computes with doubles but has only whole numbers.
-/

namespace Eddyq.Lib

/-! ## Rounding -/

/-- To the nearest integer, ties to even. -/
def roundEven (q : ℚ) : ℤ :=
  if q - ⌊q⌋ < 1 / 2 then ⌊q⌋
  else if 1 / 2 < q - ⌊q⌋ then ⌊q⌋ + 1
  else if ⌊q⌋ % 2 = 0 then ⌊q⌋ else ⌊q⌋ + 1

/-- The exponent of the last of the 53 bits. -/
def lastBit (q : ℚ) : ℤ := max (Int.log 2 q - 52) (-1074)

/-- The double that is nearest to a positive number, if the exponents had no end. -/
def toDouble (q : ℚ) : ℚ := roundEven (q / 2 ^ lastBit q) * 2 ^ lastBit q

/-- A finite double; the zero with a sign is the zero. -/
structure Double where
  val : ℚ
  rounded : toDouble |val| = |val|
  finite : |val| < 2 ^ 1024

theorem roundEven_intCast (n : ℤ) : roundEven n = n := by
  rw [roundEven, Int.floor_intCast, sub_self, if_pos (by norm_num)]

theorem floor_le_roundEven (q : ℚ) : ⌊q⌋ ≤ roundEven q := by
  unfold roundEven
  split_ifs <;> omega

/-- Rounding a quotient by a power of two looks at its remainder. -/
theorem roundEven_div (m e : ℕ) : roundEven ((m : ℚ) / 2 ^ (e + 1)) =
    ((if m % 2 ^ (e + 1) > 2 ^ e ∨ m % 2 ^ (e + 1) = 2 ^ e ∧ m / 2 ^ (e + 1) % 2 = 1 then m / 2 ^ (e + 1) + 1
      else m / 2 ^ (e + 1) : ℕ) : ℤ) := by
  have hfloor : ⌊(m : ℚ) / 2 ^ (e + 1)⌋ = ((m / 2 ^ (e + 1) : ℕ) : ℤ) := by
    have h := Rat.floor_intCast_div_natCast m (2 ^ (e + 1))
    push_cast at h ⊢
    exact h
  have hunit : (0 : ℚ) < 2 ^ (e + 1) := by positivity
  have hrest : (m : ℚ) / 2 ^ (e + 1) - ((m / 2 ^ (e + 1) : ℕ) : ℤ) = (m % 2 ^ (e + 1) : ℕ) / 2 ^ (e + 1) := by
    have h := Nat.div_add_mod m (2 ^ (e + 1))
    have h : (2 : ℚ) ^ (e + 1) * (m / 2 ^ (e + 1) : ℕ) + (m % 2 ^ (e + 1) : ℕ) = m := by exact_mod_cast h
    rw [eq_div_iff hunit.ne', sub_mul, div_mul_cancel₀ _ hunit.ne', Int.cast_natCast]
    linarith
  have hhalf : (2 : ℚ) ^ (e + 1) / 2 = 2 ^ e := by
    rw [pow_succ]
    ring
  have hlt : (m % 2 ^ (e + 1) : ℕ) / (2 : ℚ) ^ (e + 1) < 1 / 2 ↔ m % 2 ^ (e + 1) < 2 ^ e := by
    rw [div_lt_iff₀ hunit, one_div_mul_eq_div, hhalf]
    exact_mod_cast Iff.rfl
  have hgt : 1 / 2 < (m % 2 ^ (e + 1) : ℕ) / (2 : ℚ) ^ (e + 1) ↔ 2 ^ e < m % 2 ^ (e + 1) := by
    rw [lt_div_iff₀ hunit, one_div_mul_eq_div, hhalf]
    exact_mod_cast Iff.rfl
  unfold roundEven
  rw [hfloor, hrest]
  simp only [hlt, hgt]
  split_ifs <;> omega

/-- What the last bit measures is a double. -/
theorem toDouble_of_mul {q : ℚ} {n : ℤ} (h : q = n * 2 ^ lastBit q) : toDouble q = q := by
  have hne : (2 : ℚ) ^ lastBit q ≠ 0 := zpow_ne_zero _ (by norm_num)
  have hdiv : q / 2 ^ lastBit q = n := (div_eq_iff hne).mpr h
  rw [toDouble, hdiv, roundEven_intCast]
  exact h.symm

theorem log_natCast_lt {n : ℕ} (h : n < 2 ^ 53) : Int.log 2 (n : ℚ) ≤ 52 := by
  rw [Int.log_natCast]
  have := Nat.log_lt_of_lt_pow' (b := 2) (by decide) h
  omega

/-- A natural number with 53 bits is a double. -/
theorem toDouble_natCast {n : ℕ} (h : n < 2 ^ 53) : toDouble n = n := by
  have hlog := log_natCast_lt h
  have hbit : lastBit n ≤ 0 := by
    unfold lastBit
    omega
  obtain ⟨k, hk⟩ := Int.eq_ofNat_of_zero_le (a := -lastBit n) (by omega)
  refine toDouble_of_mul (n := n * 2 ^ k) ?_
  rw [show lastBit n = -(k : ℤ) by omega, zpow_neg, zpow_natCast]
  push_cast
  field_simp

/-- So is one with 53 bits followed by zeros. -/
theorem toDouble_shift {m k : ℕ} (h : m < 2 ^ 53) : toDouble ((m * 2 ^ k : ℕ) : ℚ) = (m * 2 ^ k : ℕ) := by
  have hlog : Int.log 2 ((m * 2 ^ k : ℕ) : ℚ) ≤ 52 + k := by
    rw [Int.log_natCast]
    have hlt : m * 2 ^ k < 2 ^ (53 + k) := by
      rw [pow_add]
      exact Nat.mul_lt_mul_of_pos_right h (by positivity)
    have := Nat.log_lt_of_lt_pow' (b := 2) (by omega) hlt
    omega
  have hbit : lastBit ((m * 2 ^ k : ℕ) : ℚ) ≤ k := by
    unfold lastBit
    omega
  obtain ⟨j, hj⟩ := Int.eq_ofNat_of_zero_le (a := k - lastBit ((m * 2 ^ k : ℕ) : ℚ)) (by omega)
  refine toDouble_of_mul (n := m * 2 ^ j) ?_
  generalize lastBit ((m * 2 ^ k : ℕ) : ℚ) = z at hj
  have hsplit : (2 : ℚ) ^ k = 2 ^ j * 2 ^ z := by
    rw [← zpow_natCast, ← zpow_natCast, ← zpow_add₀ (by norm_num)]
    congr 1
    omega
  push_cast
  rw [hsplit, mul_assoc]

/-- A natural number with 53 bits as a double. -/
def Double.ofNat (n : ℕ) (h : n < 2 ^ 53) : Double where
  val := n
  rounded := by rw [abs_of_nonneg (Nat.cast_nonneg n), toDouble_natCast h]
  finite := by
    rw [abs_of_nonneg (Nat.cast_nonneg n)]
    exact lt_trans (by exact_mod_cast h) (pow_lt_pow_right₀ one_lt_two (by norm_num))

/-- From `2^53` on rounding stays there. -/
theorem le_toDouble {q : ℚ} (h : 2 ^ 53 ≤ q) : 2 ^ 53 ≤ toDouble q := by
  have hpos : 0 < q := lt_of_lt_of_le (by norm_num) h
  have hlog : 53 ≤ Int.log 2 q := (Int.zpow_le_iff_le_log (by decide) hpos).mp (by exact_mod_cast h)
  have hbit : lastBit q = Int.log 2 q - 52 := by
    unfold lastBit
    omega
  have hle : (2 : ℚ) ^ Int.log 2 q ≤ q := by exact_mod_cast Int.zpow_log_le_self (b := 2) (by decide) hpos
  have hsplit : (2 : ℚ) ^ Int.log 2 q = 2 ^ 52 * 2 ^ lastBit q := by
    rw [hbit, ← zpow_natCast, ← zpow_add₀ (by norm_num)]
    congr 1
    norm_num
  have hunit : (0 : ℚ) < 2 ^ lastBit q := zpow_pos (by norm_num) _
  have hdiv : (2 ^ 52 : ℚ) ≤ q / 2 ^ lastBit q := by rwa [le_div_iff₀ hunit, ← hsplit]
  have hround : (2 ^ 52 : ℤ) ≤ roundEven (q / 2 ^ lastBit q) :=
    le_trans (Int.le_floor.mpr (by exact_mod_cast hdiv)) (floor_le_roundEven _)
  calc (2 ^ 53 : ℚ) ≤ 2 ^ Int.log 2 q := by exact_mod_cast zpow_le_zpow_right₀ (by norm_num : (1 : ℚ) ≤ 2) hlog
    _ = 2 ^ 52 * 2 ^ lastBit q := hsplit
    _ ≤ roundEven (q / 2 ^ lastBit q) * 2 ^ lastBit q :=
      mul_le_mul_of_nonneg_right (by exact_mod_cast hround) hunit.le

/-- A double from `2^53` on is a whole number. -/
theorem exists_int_of_le {x : ℚ} (h : toDouble x = x) (hx : 2 ^ 53 ≤ x) : ∃ n : ℤ, x = n := by
  have hpos : 0 < x := lt_of_lt_of_le (by norm_num) hx
  have hlog : 53 ≤ Int.log 2 x := (Int.zpow_le_iff_le_log (by decide) hpos).mp (by exact_mod_cast hx)
  obtain ⟨k, hk⟩ := Int.eq_ofNat_of_zero_le (a := lastBit x) (by unfold lastBit; omega)
  refine ⟨roundEven (x / 2 ^ lastBit x) * 2 ^ k, ?_⟩
  conv_lhs => rw [← h, toDouble, hk, zpow_natCast]
  rw [hk, zpow_natCast]
  push_cast
  rfl

/-- The double that is nearest to an integer. -/
def nearest (n : ℤ) : ℤ := n.sign * ⌊toDouble n.natAbs⌋

theorem nearest_small {n : ℤ} (h : n.natAbs < 2 ^ 53) : nearest n = n := by
  rw [nearest, toDouble_natCast h, Int.floor_natCast, Int.sign_mul_natAbs]

theorem nearest_shift {n : ℤ} {k : ℕ} (h : n.natAbs < 2 ^ 53) : nearest (n * 2 ^ k) = n * 2 ^ k := by
  have habs : (n * 2 ^ k).natAbs = n.natAbs * 2 ^ k := by
    rw [Int.natAbs_mul, Int.natAbs_pow]
    rfl
  rw [nearest, habs, toDouble_shift h, Int.floor_natCast, ← habs, Int.sign_mul_natAbs]

/-- An integer up to `2^53` is a double. -/
theorem nearest_exact {n : ℤ} (h : n.natAbs ≤ 2 ^ 53) : nearest n = n := by
  rcases Nat.lt_or_eq_of_le h with hlt | heq
  · exact nearest_small hlt
  · rcases Int.natAbs_eq n with hn | hn
    · rw [heq] at hn
      rw [hn]
      exact nearest_shift (n := 1) (k := 53) (by decide)
    · rw [heq] at hn
      rw [hn]
      exact nearest_shift (n := -1) (k := 53) (by decide)

theorem nearest_large {n : ℤ} (h : 2 ^ 53 ≤ n.natAbs) : 2 ^ 53 ≤ (nearest n).natAbs := by
  have hle : (2 ^ 53 : ℤ) ≤ ⌊toDouble n.natAbs⌋ :=
    Int.le_floor.mpr (by exact_mod_cast le_toDouble (by exact_mod_cast h))
  have hn : n ≠ 0 := by omega
  rw [nearest, Int.natAbs_mul, Int.natAbs_sign_of_ne_zero hn, one_mul]
  omega

/-! ## The shortest digits -/

/-- `k` digits and the exponent of the last one that round to the positive `x`: of two, the nearer. -/
def digitsAt (x : ℚ) (k : ℕ) : Option (ℕ × ℤ) :=
  let j := Int.log 10 x + 1 - k
  let s := ⌊x / 10 ^ j⌋₊
  let below : ℚ := s * 10 ^ j
  let above : ℚ := (s + 1 : ℕ) * 10 ^ j
  if toDouble below = x ∧ (toDouble above = x → x - below < above - x ∨ x - below = above - x ∧ s % 2 = 0) then some (s, j)
  else if toDouble above = x then some (if s + 1 = 10 ^ k then (1, j + k) else (s + 1, j))
  else none

/-- What 17 digits leave of the positive `x`. -/
def digits17 (x : ℚ) : ℕ × ℤ := (⌊x / 10 ^ (Int.log 10 x - 16)⌋₊, Int.log 10 x - 16)

/-- The fewest digits that round to the positive `x`; 17 always do. -/
def shortest (x : ℚ) : ℕ × ℤ := ((List.range' 1 17).findSome? (digitsAt x)).getD (digits17 x)

/-- `s * 10 ^ j` with a point or an exponent where the digits do not reach the units or are too far from them. -/
def positional (s : ℕ) (j : ℤ) : List Char :=
  let digits := Nat.toDigits 10 s
  let n := j + digits.length
  if 0 ≤ j ∧ n ≤ 21 then digits ++ List.replicate j.toNat '0'
  else if 0 < n ∧ n ≤ 21 then digits.take n.toNat ++ '.' :: digits.drop n.toNat
  else if -6 < n ∧ n ≤ 0 then '0' :: '.' :: (List.replicate (-n).toNat '0' ++ digits)
  else digits.take 1 ++ (if digits.length = 1 then [] else '.' :: digits.drop 1) ++
    'e' :: (if n - 1 < 0 then '-' else '+') :: Nat.toDigits 10 (n - 1).natAbs

/-- `Number::toString` of a finite double. -/
def numberText (x : ℚ) : List Char :=
  if x = 0 then ['0']
  else if x < 0 then '-' :: positional (shortest (-x)).1 (shortest (-x)).2
  else positional (shortest x).1 (shortest x).2

section Shortest

variable {x : ℚ}

theorem pow_le_scaled (hx : 0 < x) {k : ℕ} (hk : 0 < k) : ((10 ^ (k - 1) : ℕ) : ℚ) ≤ x / 10 ^ (Int.log 10 x + 1 - k) := by
  have hle : (10 : ℚ) ^ Int.log 10 x ≤ x := by exact_mod_cast Int.zpow_log_le_self (b := 10) (by decide) hx
  rw [le_div_iff₀ (zpow_pos (by norm_num) _)]
  push_cast
  calc (10 : ℚ) ^ (k - 1) * 10 ^ (Int.log 10 x + 1 - k) = 10 ^ ((k - 1 : ℕ) + (Int.log 10 x + 1 - k)) := by
        rw [zpow_add₀ (by norm_num), zpow_natCast]
    _ ≤ 10 ^ Int.log 10 x := zpow_le_zpow_right₀ (by norm_num) (by omega)
    _ ≤ x := hle

theorem digitsAt_pos (hx : 0 < x) {k : ℕ} (hk : 0 < k) : 0 < ⌊x / 10 ^ (Int.log 10 x + 1 - k)⌋₊ :=
  lt_of_lt_of_le (Nat.pow_pos (by decide)) (Nat.le_floor (pow_le_scaled hx hk))

/-- The digits round to the double. -/
theorem digitsAt_some (hx : 0 < x) {k : ℕ} (hk : 0 < k) {s : ℕ} {j : ℤ} (h : digitsAt x k = some (s, j)) :
    0 < s ∧ Int.log 10 x + 1 - k ≤ j ∧ toDouble (s * 10 ^ j) = x := by
  have hpos := digitsAt_pos hx hk
  simp only [digitsAt] at h
  split_ifs at h with hbelow habove hcarry
  · cases h
    exact ⟨hpos, le_refl _, hbelow.1⟩
  · cases h
    refine ⟨one_pos, by omega, ?_⟩
    rw [hcarry] at habove
    rwa [Nat.cast_one, one_mul, zpow_add₀ (by norm_num), mul_comm, zpow_natCast, ← Nat.cast_ofNat, ← Nat.cast_pow]
  · cases h
    exact ⟨Nat.succ_pos _, le_refl _, habove⟩

/-- So do the fewest, or there are 17. -/
theorem shortest_spec (hx : 0 < x) : 0 < (shortest x).1 ∧
    (toDouble ((shortest x).1 * 10 ^ (shortest x).2) = x ∨ (shortest x).2 = Int.log 10 x - 16) := by
  unfold shortest
  cases h : (List.range' 1 17).findSome? (digitsAt x) with
  | none =>
    have hpos := digitsAt_pos hx (k := 17) (by decide)
    rw [show Int.log 10 x + 1 - (17 : ℕ) = Int.log 10 x - 16 by omega] at hpos
    exact ⟨hpos, .inr rfl⟩
  | some found =>
    obtain ⟨k, hmem, hk⟩ := List.exists_of_findSome?_eq_some h
    obtain ⟨hpos, -, hround⟩ := digitsAt_some hx (List.mem_range'_1.mp hmem).1 hk
    exact ⟨hpos, .inl hround⟩

end Shortest

/-! ## The token -/

section Token

open Eddyq.Lib.Json

theorem digits_all (n : ℕ) : ∀ c ∈ Nat.toDigits 10 n, c.isDigit = true := fun _ hc => isDigit_toDigits hc

theorem numChar_of_isDigit {c : Char} (h : c.isDigit = true) : numChar c = true := by
  simp [numChar, h]

/-- Digits are taken up to what follows them. -/
theorem digitsThen_append {f : List Char → Bool} {ds r : List Char} (hne : ds ≠ []) (hds : ∀ c ∈ ds, c.isDigit = true)
    (hr : ∀ c ∈ r.head?, c.isDigit = false) : digitsThen f (ds ++ r) = f r := by
  have htake : (ds ++ r).takeWhile Char.isDigit = ds := by
    rw [List.takeWhile_append_of_pos hds, List.append_right_eq_self]
    cases r with
    | nil => rfl
    | cons c r => exact List.takeWhile_cons_of_neg (by rw [hr c rfl]; nofun)
  have hdrop : (ds ++ r).dropWhile Char.isDigit = r := by
    rw [List.dropWhile_append_of_pos hds]
    cases r with
    | nil => rfl
    | cons c r => exact List.dropWhile_cons_of_neg (by rw [hr c rfl]; nofun)
  simp [digitsThen, htake, hdrop, hne]

theorem digitsThen_all {f : List Char → Bool} {ds : List Char} (hne : ds ≠ []) (hds : ∀ c ∈ ds, c.isDigit = true) :
    digitsThen f ds = f [] := by
  have h := digitsThen_append (f := f) (r := []) hne hds nofun
  rwa [List.append_nil] at h

/-- What a number is after its sign. -/
def Unsigned (l : List Char) : Prop := l.head? ≠ some '-' ∧ NumToken l

theorem Unsigned.neg {l : List Char} (h : Unsigned l) : NumToken ('-' :: l) := by
  obtain ⟨hhead, hvalid, hall⟩ := h
  refine ⟨?_, List.all_eq_true.mpr fun c hc => ?_⟩
  · unfold validNumber at hvalid ⊢
    rw [if_neg hhead] at hvalid
    exact hvalid
  · cases hc with
    | head => rfl
    | tail _ hc => exact List.all_eq_true.mp hall c hc

/-- Digits that no zero leads, and a fraction or an exponent. -/
theorem unsigned_append {ds r : List Char} (hne : ds ≠ []) (hds : ∀ c ∈ ds, c.isDigit = true) (hzero : ds.head? ≠ some '0')
    (hr : ∀ c ∈ r.head?, c.isDigit = false) (hvalid : validFraction r = true) (hall : r.all numChar = true) :
    Unsigned (ds ++ r) := by
  have hall : (ds ++ r).all numChar = true := by
    rw [List.all_append, hall, Bool.and_true]
    exact List.all_eq_true.mpr fun c hc => numChar_of_isDigit (hds c hc)
  cases ds with
  | nil => exact absurd rfl hne
  | cons d ds =>
    have hminus : ((d :: ds) ++ r).head? ≠ some '-' := by
      intro h
      have : d = '-' := Option.some.inj h
      subst this
      exact absurd (hds '-' List.mem_cons_self) (by decide)
    refine ⟨hminus, ?_, hall⟩
    unfold validNumber
    rw [if_neg hminus]
    dsimp only
    split
    · next heq => exact absurd (congrArg some (List.cons.inj heq).1) hzero
    · exact (digitsThen_append hne hds hr).trans hvalid

theorem head_toDigits_ne {s : ℕ} (hs : 0 < s) : (Nat.toDigits 10 s).head? ≠ some '0' := fun h => by
  have := head_toDigits s h
  omega

/-- An exponent with its sign. -/
theorem valid_exponent {sign : Char} (h : sign = '+' ∨ sign = '-') (n : ℕ) :
    validExponent ('e' :: sign :: Nat.toDigits 10 n) = true ∧ ('e' :: sign :: Nat.toDigits 10 n).all numChar = true := by
  have hdigits : (Nat.toDigits 10 n).all numChar = true := List.all_eq_true.mpr fun c hc =>
    numChar_of_isDigit (digits_all n c hc)
  rcases h with rfl | rfl
  · exact ⟨digitsThen_all Nat.toDigits_ne_nil (digits_all n), hdigits⟩
  · exact ⟨digitsThen_all Nat.toDigits_ne_nil (digits_all n), hdigits⟩

theorem all_numChar {ds : List Char} (h : ∀ c ∈ ds, c.isDigit = true) : ds.all numChar = true :=
  List.all_eq_true.mpr fun c hc => numChar_of_isDigit (h c hc)

/-- Every form is a number. -/
theorem unsigned_positional {s : ℕ} (hs : 0 < s) (j : ℤ) : Unsigned (positional s j) := by
  have hall := digits_all s
  have hzero := head_toDigits_ne hs
  have hlen : 0 < (Nat.toDigits 10 s).length := Nat.length_toDigits_pos
  unfold positional
  dsimp only
  generalize Nat.toDigits 10 s = ds at hall hzero hlen
  have hne : ds ≠ [] := List.ne_nil_of_length_pos hlen
  split
  · rw [← List.append_nil (ds ++ List.replicate j.toNat '0')]
    refine unsigned_append (by simp [hne]) ?_ ?_ nofun rfl rfl
    · intro c hc
      rcases List.mem_append.mp hc with hc | hc
      · exact hall c hc
      · rw [List.eq_of_mem_replicate hc]
        rfl
    · rwa [List.head?_append_of_ne_nil _ hne]
  split
  · next hpoint =>
    have hdrop : ds.drop (j + ds.length).toNat ≠ [] := by
      rw [ne_eq, List.drop_eq_nil_iff]
      omega
    have hdigits : ∀ c ∈ ds.drop (j + ds.length).toNat, c.isDigit = true := fun c hc => hall c (List.mem_of_mem_drop hc)
    refine unsigned_append ?_ (fun c hc => hall c (List.mem_of_mem_take hc)) ?_ (fun c hc => by cases hc; rfl)
      (digitsThen_all hdrop hdigits) ?_
    · rw [ne_eq, List.take_eq_nil_iff]
      rintro (h | h)
      · omega
      · exact hne h
    · rw [List.head?_take, if_neg (by omega)]
      exact hzero
    · rw [List.all_cons, all_numChar hdigits]
      rfl
  split
  · have hdigits : ∀ c ∈ List.replicate (-(j + ds.length)).toNat '0' ++ ds, c.isDigit = true := by
      intro c hc
      rcases List.mem_append.mp hc with hc | hc
      · rw [List.eq_of_mem_replicate hc]
        rfl
      · exact hall c hc
    refine ⟨by simp, ?_, ?_⟩
    · show digitsThen validExponent (List.replicate (-(j + ds.length)).toNat '0' ++ ds) = true
      rw [digitsThen_all (by simp [hne]) hdigits]
      rfl
    · show (List.replicate (-(j + ds.length)).toNat '0' ++ ds).all numChar = true
      exact all_numChar hdigits
  · have hsign : (if j + ds.length - 1 < 0 then '-' else '+') = '+' ∨ (if j + ds.length - 1 < 0 then '-' else '+') = '-' := by
      split
      · exact .inr rfl
      · exact .inl rfl
    obtain ⟨hexp, hchars⟩ := valid_exponent hsign (j + ds.length - 1).natAbs
    rw [List.append_assoc]
    refine unsigned_append (by simp [hne]) (fun c hc => hall c (List.mem_of_mem_take hc)) ?_ ?_ ?_ ?_
    · rwa [List.head?_take, if_neg (by decide)]
    · split
      · exact fun c hc => by cases hc; rfl
      · exact fun c hc => by cases hc; rfl
    · split
      · exact hexp
      · next hone =>
        have hdrop : ds.drop 1 ≠ [] := by
          rw [ne_eq, List.drop_eq_nil_iff]
          omega
        exact (digitsThen_append hdrop (fun c hc => hall c (List.mem_of_mem_drop hc))
          (fun c hc => by cases hc; rfl)).trans hexp
    · rw [List.all_append, hchars, Bool.and_true]
      split
      · rfl
      · exact (all_numChar fun c hc => hall c (List.mem_of_mem_drop hc) : (ds.drop 1).all numChar = true)

/-- **The text of a double** is a number token. -/
theorem numToken_numberText (x : ℚ) : NumToken (numberText x) := by
  unfold numberText
  split
  · exact ⟨rfl, rfl⟩
  split
  · next hneg => exact (unsigned_positional (shortest_spec (neg_pos.mpr hneg)).1 _).neg
  · next hzero hneg =>
    have hpos : 0 < x := lt_of_le_of_ne (not_lt.mp hneg) (Ne.symm hzero)
    exact (unsigned_positional (shortest_spec hpos).1 _).2

/-- The digits of a natural number. -/
theorem unsigned_toDigits (n : ℕ) : Unsigned (Nat.toDigits 10 n) := by
  cases Nat.eq_zero_or_pos n with
  | inl h =>
    subst h
    exact ⟨by decide, by decide, by decide⟩
  | inr h =>
    rw [← List.append_nil (Nat.toDigits 10 n)]
    exact unsigned_append Nat.toDigits_ne_nil (digits_all n) (head_toDigits_ne h) nofun rfl rfl

theorem numToken_signed (n : ℤ) {l : List Char} (h : Unsigned l) : NumToken (signed n l) := by
  unfold signed
  split
  · exact h.neg
  · exact h.2

/-- An integer is a number token. -/
theorem numToken_decimal (n : ℤ) : NumToken (decimal n) := numToken_signed n (unsigned_toDigits n.natAbs)

/-- So is what `%.14g` makes of it. -/
theorem numToken_g14 (n : ℤ) : NumToken (g14 n) := by
  refine numToken_signed n ?_
  split
  · exact unsigned_toDigits _
  · next hlarge =>
    have hround := round14_large (not_lt.mp hlarge)
    have hpos : 0 < round14 n.natAbs := lt_of_lt_of_le (by norm_num) hround
    generalize round14 n.natAbs = m at hpos
    obtain ⟨z, hz⟩ := significant_append (Nat.toDigits 10 m)
    have hne := significant_ne_nil (n := m) (by omega)
    have hall : ∀ c ∈ significant (Nat.toDigits 10 m), c.isDigit = true := fun c hc =>
      digits_all m c (hz ▸ List.mem_append_left _ hc)
    have hzero : (significant (Nat.toDigits 10 m)).head? ≠ some '0' := by
      have h := head_toDigits_ne hpos
      rwa [hz, List.head?_append_of_ne_nil _ hne] at h
    unfold scientific
    cases hsig : significant (Nat.toDigits 10 m) with
    | nil => exact absurd hsig hne
    | cons d ds =>
      rw [hsig] at hall hzero
      obtain ⟨hexp, hchars⟩ := valid_exponent (.inl rfl : '+' = '+' ∨ '+' = '-') ((Nat.toDigits 10 m).length - 1)
      have hds : ∀ c ∈ ds, c.isDigit = true := fun c hc => hall c (List.mem_cons_of_mem _ hc)
      show Unsigned ([d] ++ ((if ds = [] then [] else '.' :: ds) ++ 'e' :: '+' ::
        Nat.toDigits 10 ((Nat.toDigits 10 m).length - 1)))
      refine unsigned_append (List.cons_ne_nil d []) (fun c hc => List.mem_singleton.mp hc ▸ hall d List.mem_cons_self)
        hzero ?_ ?_ ?_
      · split
        · exact fun c hc => by cases hc; rfl
        · exact fun c hc => by cases hc; rfl
      · split
        · exact hexp
        · next hds' => exact (digitsThen_append hds' hds (fun c hc => by cases hc; rfl)).trans hexp
      · rw [List.all_append, hchars, Bool.and_true]
        split
        · rfl
        · exact (all_numChar hds : ds.all numChar = true)

end Token

/-! ## Whole numbers -/

section Whole

theorem toDigits_inj {m n : ℕ} (h : Nat.toDigits 10 m = Nat.toDigits 10 n) : m = n :=
  Option.some.inj ((readNat_eq_some.mpr rfl).symm.trans (readNat_eq_some.mpr h))

/-- Powers of ten append zeros. -/
theorem toDigits_mul_pow {s : ℕ} (hs : 0 < s) : ∀ k, Nat.toDigits 10 (s * 10 ^ k) =
    Nat.toDigits 10 s ++ List.replicate k '0'
  | 0 => by rw [pow_zero, mul_one, List.replicate_zero, List.append_nil]
  | k + 1 => by
    have h := Nat.toDigits_append_toDigits (b := 10) (by decide) (Nat.mul_pos hs (Nat.pow_pos (by decide)))
      (show 0 < 10 by decide) (n := s * 10 ^ k)
    rw [toDigits_mul_pow hs k, Nat.toDigits_zero, List.append_assoc, ← List.replicate_succ'] at h
    rw [h]
    congr 1
    ring

/-- Only the integer form has the digits of a natural number. -/
theorem positional_eq_toDigits {s : ℕ} (hs : 0 < s) {j : ℤ} {n : ℕ} (h : positional s j = Nat.toDigits 10 n) :
    0 ≤ j ∧ n = s * 10 ^ j.toNat := by
  have hdigits : ∀ c ∈ positional s j, c.isDigit = true := fun c hc => isDigit_toDigits (h ▸ hc)
  unfold positional at h hdigits
  dsimp only at h hdigits
  split at h
  · next hint => exact ⟨hint.1, (toDigits_inj ((toDigits_mul_pow hs _).trans h)).symm⟩
  split at h
  · next hint hpoint =>
    rw [if_neg hint, if_pos hpoint] at hdigits
    exact absurd (hdigits '.' (by simp)) (by decide)
  split at h
  · next hint hpoint hsmall =>
    rw [if_neg hint, if_neg hpoint, if_pos hsmall] at hdigits
    exact absurd (hdigits '.' (by simp)) (by decide)
  · next hint hpoint hsmall =>
    rw [if_neg hint, if_neg hpoint, if_neg hsmall] at hdigits
    exact absurd (hdigits 'e' (by simp)) (by decide)

/-- **Digits of a natural number** are written only for the whole number, if the number is the nearest one. -/
theorem natCast_of_numberText {x : ℚ} (hx : toDouble |x| = |x|) {n : ℕ} (h : numberText x = Nat.toDigits 10 n)
    (hn : (n : ℤ) = max (round x) 0) : x = n := by
  unfold numberText at h
  split at h
  · next hzero =>
    rw [hzero, round_zero, max_self] at hn
    rw [hzero, Nat.cast_eq_zero.mp hn, Nat.cast_zero]
  split at h
  · exact absurd h.symm (toDigits_ne_minus n _)
  next hzero hneg =>
    have hpos : 0 < x := lt_of_le_of_ne (not_lt.mp hneg) (Ne.symm hzero)
    rw [abs_of_pos hpos] at hx
    by_cases hlarge : 2 ^ 53 ≤ x
    · obtain ⟨m, rfl⟩ := exists_int_of_le hx hlarge
      rw [round_intCast] at hn
      have hm : 0 < m := by exact_mod_cast hpos
      have : (n : ℤ) = m := by omega
      exact_mod_cast this.symm
    obtain ⟨hs, hshort⟩ := shortest_spec hpos
    obtain ⟨hj, hval⟩ := positional_eq_toDigits hs h
    rcases hshort with hround | h17
    · obtain ⟨k, hk⟩ := Int.eq_ofNat_of_zero_le hj
      rw [hk, Int.toNat_natCast] at hval
      rw [hk, zpow_natCast, show ((shortest x).1 : ℚ) * 10 ^ k = n by rw [hval]; push_cast; rfl] at hround
      by_cases hn53 : n < 2 ^ 53
      · exact hround.symm.trans (toDouble_natCast hn53)
      · exact absurd (hround ▸ le_toDouble (by exact_mod_cast not_lt.mp hn53)) hlarge
    · have hlog : (16 : ℤ) ≤ Int.log 10 x := by omega
      have h16 : (10 : ℚ) ^ (16 : ℤ) ≤ x := by exact_mod_cast (Int.zpow_le_iff_le_log (b := 10) (by decide) hpos).mpr hlog
      exact absurd (le_trans (by norm_num) h16) hlarge

/-- `n` has digits down to the units that round to it. -/
theorem digitsAt_natCast {n : ℕ} (h : n < 2 ^ 53) : digitsAt n (Nat.log 10 n + 1) = some (n, 0) := by
  have hj : Int.log 10 (n : ℚ) + 1 - (Nat.log 10 n + 1 : ℕ) = 0 := by
    rw [Int.log_natCast]
    omega
  simp only [digitsAt, hj, zpow_zero, div_one, mul_one, Nat.floor_natCast, toDouble_natCast h]
  rw [if_pos ⟨trivial, fun _ => .inl (by push_cast; linarith)⟩]

/-- The fewest digits of a whole number are its own without the last zeros. -/
theorem shortest_natCast {n : ℕ} (hn : 0 < n) (h : n < 2 ^ 53) :
    ∃ s z : ℕ, shortest n = (s, (z : ℤ)) ∧ 0 < s ∧ s * 10 ^ z = n := by
  have hpos : (0 : ℚ) < n := by exact_mod_cast hn
  have hlog : Nat.log 10 n < 16 := Nat.log_lt_of_lt_pow (by omega) (lt_trans h (by norm_num))
  -- with all the digits it is found, so it is found with `k` of them, down to the units or before
  obtain ⟨found, hfound⟩ : ∃ found, (List.range' 1 (Nat.log 10 n + 1)).findSome? (digitsAt n) = some found := by
    refine Option.isSome_iff_exists.mp (List.findSome?_isSome_iff.mpr ⟨Nat.log 10 n + 1, ?_, ?_⟩)
    · exact List.mem_range'_1.mpr ⟨by omega, by omega⟩
    · rw [digitsAt_natCast h]
      rfl
  have hshort : shortest n = found := by
    have hrange : List.range' 1 17 =
        List.range' 1 (Nat.log 10 n + 1) ++ List.range' (Nat.log 10 n + 2) (16 - Nat.log 10 n) := by
      rw [show Nat.log 10 n + 2 = 1 + 1 * (Nat.log 10 n + 1) by ring, List.range'_append]
      congr 1
      omega
    rw [shortest, hrange, List.findSome?_append, hfound]
    rfl
  obtain ⟨s, j⟩ := found
  obtain ⟨k, hmem, hk⟩ := List.exists_of_findSome?_eq_some hfound
  obtain ⟨hs, hj, hround⟩ := digitsAt_some hpos (List.mem_range'_1.mp hmem).1 hk
  have hk' := (List.mem_range'_1.mp hmem).2
  rw [Int.log_natCast] at hj
  obtain ⟨z, rfl⟩ := Int.eq_ofNat_of_zero_le (show 0 ≤ j by omega)
  have hround : toDouble (s * 10 ^ z : ℕ) = n := by
    rw [← hround]
    push_cast
    rw [zpow_natCast]
  refine ⟨s, z, hshort, hs, ?_⟩
  by_cases hlt : s * 10 ^ z < 2 ^ 53
  · rw [toDouble_natCast hlt] at hround
    exact_mod_cast hround
  · have hle : (2 : ℚ) ^ 53 ≤ n := hround ▸ le_toDouble (by exact_mod_cast not_lt.mp hlt)
    have : 2 ^ 53 ≤ n := by exact_mod_cast hle
    omega

/-- **Whole numbers below `2^53`** are written with their own digits. -/
theorem numberText_natCast {n : ℕ} (h : n < 2 ^ 53) : numberText n = Nat.toDigits 10 n := by
  cases Nat.eq_zero_or_pos n with
  | inl hzero =>
    subst hzero
    rfl
  | inr hn =>
    obtain ⟨s, z, hshort, hs, hval⟩ := shortest_natCast hn h
    have hpos : (0 : ℚ) < n := by exact_mod_cast hn
    have hlen : (Nat.toDigits 10 (s * 10 ^ z)).length ≤ 16 :=
      (Nat.length_toDigits_le_iff (by decide) (by decide)).mpr (by rw [hval]; exact lt_trans h (by norm_num))
    rw [toDigits_mul_pow hs, List.length_append, List.length_replicate] at hlen
    unfold numberText
    rw [if_neg hpos.ne', if_neg (not_lt.mpr hpos.le), hshort]
    unfold positional
    dsimp only
    rw [if_pos ⟨by omega, by omega⟩, ← hval, toDigits_mul_pow hs, Int.toNat_natCast]

end Whole

end Eddyq.Lib
