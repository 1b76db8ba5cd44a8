import Eddyq.Lib.Double
import Eddyq.Redis.Jobs

/-!
# Scores of the wait set

`wait_score` computes with the doubles of Lua, each operation rounded (`luaScore`). The product with the priority is always exact, so
that the score is the sum rounded once (`luaScore_eq`), and the sum is exact up to `2^53`: for the priorities from -899 to 900
at every time, and for the two next to them at some (`Unrounded`). There the scores order the jobs as the queue does, and
nowhere else are they exact (`embeds_iff`).
-/

namespace Eddyq.Redis

open Lib

/-- The rounding of the scores is that of doubles. -/
theorem toDouble_eq_nearest (n : ℤ) : Redis.toDouble n = nearest n := by
  unfold Redis.toDouble
  dsimp only
  by_cases hle : n.natAbs ≤ 2 ^ 53
  · rw [if_pos hle, nearest_exact hle]
  · rw [if_neg hle]
    have hlog : 53 ≤ Nat.log2 n.natAbs := (Nat.le_log2 (by omega)).mpr (by omega)
    obtain ⟨e, he⟩ : ∃ e, Nat.log2 n.natAbs - 52 = e + 1 := ⟨Nat.log2 n.natAbs - 53, by omega⟩
    have hbit : lastBit (n.natAbs : ℚ) = (e + 1 : ℕ) := by
      unfold lastBit
      rw [Int.log_natCast, ← Nat.log2_eq_log_two]
      omega
    rw [nearest, Lib.toDouble, hbit, zpow_natCast, roundEven_div, he, Nat.add_sub_cancel, Int.cast_natCast]
    congr 1
    exact_mod_cast (Int.floor_natCast (R := ℚ) _).symm

/-- `(-priority) * 1e13 + scheduled_at_ms`. -/
def luaScore (priority scheduledAt : ℤ) : ℤ := nearest (nearest (-priority * 10 ^ 13) + scheduledAt)

/-- A priority of 16 bits times `1e13`, which is `5^13` followed by 13 zeros. -/
theorem nearest_product (p : Int16) : nearest (-p.toInt * 10 ^ 13) = -p.toInt * 10 ^ 13 := by
  have hle : p.toInt < 2 ^ 15 := p.toInt_lt
  have hge : -2 ^ 15 ≤ p.toInt := p.le_toInt
  have hsplit : -p.toInt * 10 ^ 13 = (-p.toInt * 5 ^ 13) * 2 ^ 13 := by
    rw [mul_assoc, ← mul_pow]
    rfl
  rw [hsplit]
  exact nearest_shift (by omega)

/-- The score is rounded once. -/
theorem luaScore_eq (p : Int16) (t : ℤ) : luaScore p.toInt t = waitScore p.toInt t := by
  rw [luaScore, nearest_product, waitScore, toDouble_eq_nearest]

/-- The priorities and times whose sum has 53 bits. -/
def Unrounded (p t : ℤ) : Prop :=
  (-899 ≤ p ∧ p ≤ 900) ∨ (p = -900 ∧ t ≤ 7199254740992) ∨ (p = 901 ∧ 2800745259008 ≤ t)

instance (p t : ℤ) : Decidable (Unrounded p t) := inferInstanceAs (Decidable (_ ∨ _ ∨ _))

theorem unrounded_iff {p t : ℤ} (h0 : 0 ≤ t) (h : t < 10 ^ 13) : Unrounded p t ↔ (-p * 10 ^ 13 + t).natAbs ≤ 2 ^ 53 := by
  unfold Unrounded
  omega

/-- The score is the whole number that it stands for, of magnitude at most `2^53`. -/
def ExactScore (p t : ℤ) : Prop := luaScore p t = -p * 10 ^ 13 + t ∧ (luaScore p t).natAbs ≤ 2 ^ 53

theorem exactScore_iff (p : Int16) {t : ℕ} (h : t < 10 ^ 13) : ExactScore p.toInt t ↔ Unrounded p.toInt t := by
  rw [unrounded_iff (Int.natCast_nonneg t) (by exact_mod_cast h), ExactScore, luaScore, nearest_product]
  constructor
  · rintro ⟨heq, hle⟩
    rwa [heq] at hle
  · intro hle
    rw [nearest_exact hle]
    exact ⟨rfl, hle⟩

/-- Two scores are exact and in the order of the queue: higher priorities first, then earlier times. -/
def Embeds (p t p' t' : ℤ) : Prop :=
  (luaScore p t < luaScore p' t' ↔ p' < p ∨ p = p' ∧ t < t') ∧ ExactScore p t ∧ ExactScore p' t'

/-- **The wait score** embeds the order exactly at the priorities and times whose sum has 53 bits. -/
theorem embeds_iff (p p' : Int16) {t t' : ℕ} (h : t < 10 ^ 13) (h' : t' < 10 ^ 13) :
    Embeds p.toInt t p'.toInt t' ↔ Unrounded p.toInt t ∧ Unrounded p'.toInt t' := by
  rw [Embeds, ← exactScore_iff p h, ← exactScore_iff p' h']
  refine ⟨fun hall => hall.2, fun hboth => ⟨?_, hboth⟩⟩
  rw [hboth.1.1, hboth.2.1]
  omega

theorem embeds_iff_today : Embeds (Int16.toInt 5) 1753000000000 (Int16.toInt 0) 1753000000000 := by
  have hiff := @embeds_iff 5 0 1753000000000 1753000000000 (by norm_num) (by norm_num)
  exact_mod_cast hiff.mpr ⟨by decide, by decide⟩

/-- Two times of one high priority with one score. -/
theorem high_priority_collides : ¬ ∀ (p p' : Int16) (t t' : ℕ), t < 10 ^ 13 → t' < 10 ^ 13 → Embeds p.toInt t p'.toInt t' := by
  intro hall
  have hlt := (hall 1000 1000 1753000000000 1753000000001 (by norm_num) (by norm_num)).1.mpr (.inr ⟨rfl, by norm_num⟩)
  rw [luaScore_eq, luaScore_eq] at hlt
  exact absurd hlt (by decide)

end Eddyq.Redis
