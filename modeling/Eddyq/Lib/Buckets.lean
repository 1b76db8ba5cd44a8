import Mathlib.Algebra.Order.Field.Rat
import Mathlib.Data.List.Count
import Mathlib.Tactic.Linarith
import Mathlib.Tactic.Positivity
import Mathlib.Tactic.Ring

/-!
# Token buckets

A bucket of rate `r` per period `p` fills up as time passes and is never fuller than `r` (`Bucket.level`). A draw at some
time takes tokens out of what is in it then. `Bucket.Kept` is what draws by a clock that does not go back keep, with the
times of all tokens taken so far: whatever was taken since a time `s`, and what is left, came from a full bucket at `s` and
the filling since then (`spent`). So no window has more draws than a full bucket and its own length allow (`windows`).
-/

namespace Eddyq.Lib

/-- What is in the bucket, and since when. -/
structure Bucket where
  tokens : ℚ
  since : ℤ

/-- How many of the times are in the window. -/
def countWithin (s t : ℤ) (times : List ℤ) : ℕ := times.countP (fun x => s ≤ x ∧ x ≤ t)

/-- How many of the times are not before `s`. -/
def countSince (s : ℤ) (times : List ℤ) : ℕ := times.countP (fun x => s ≤ x)

section Bucket

variable (r p : ℚ)

/-- What is in the bucket at that time. -/
def Bucket.level (b : Bucket) (now : ℤ) : ℚ := min (b.tokens + (max (now - b.since) 0 : ℤ) * r / p) r

/-- The bucket after the tokens with these times have been taken, newest first. -/
structure Bucket.Kept (b : Bucket) (times : List ℤ) : Prop where
  nonneg : 0 ≤ b.tokens
  full : b.tokens ≤ r
  past : ∀ x ∈ times, x ≤ b.since
  spent : ∀ s ≤ b.since, (countSince s times : ℚ) + b.tokens ≤ r + r * (b.since - s) / p
  windows : ∀ s t, s ≤ t → (countWithin s t times : ℚ) ≤ r + r * (t - s) / p

variable {r p} {b : Bucket} {times : List ℤ} {now s t : ℤ}

theorem Bucket.level_le (b : Bucket) (now : ℤ) : b.level r p now ≤ r := min_le_right _ _

theorem Bucket.level_nonneg (hr : 0 ≤ r) (hp : 0 ≤ p) (h : 0 ≤ b.tokens) : 0 ≤ b.level r p now := by
  have hmax : (0 : ℚ) ≤ (max (now - b.since) 0 : ℤ) := by exact_mod_cast le_max_right _ _
  exact le_min (by positivity) hr

theorem Bucket.level_le_add (hnow : b.since ≤ now) : b.level r p now ≤ b.tokens + r * (now - b.since) / p := by
  refine (min_le_left _ _).trans (le_of_eq ?_)
  rw [max_eq_left (by omega)]
  push_cast
  ring

/-- A full bucket. -/
theorem Bucket.Kept.fresh (hr : 0 ≤ r) (hp : 0 ≤ p) (t : ℤ) : Bucket.Kept r p ⟨r, t⟩ [] where
  nonneg := hr
  full := le_rfl
  past := nofun
  spent s hs := by
    have hlen : (0 : ℚ) ≤ t - s := by exact_mod_cast sub_nonneg.mpr hs
    have hgain : 0 ≤ r * (t - s) / p := by positivity
    simpa [countSince] using hgain
  windows s t hst := by
    have hlen : (0 : ℚ) ≤ t - s := by exact_mod_cast sub_nonneg.mpr hst
    have hgain : 0 ≤ r * (t - s) / p := by positivity
    simp only [countWithin, List.countP_nil, Nat.cast_zero]
    linarith

theorem countSince_replicate_append (k : ℕ) :
    countSince s (List.replicate k now ++ times) = (if s ≤ now then k else 0) + countSince s times := by
  simp only [countSince, List.countP_append, List.countP_replicate, decide_eq_true_eq]

theorem countWithin_replicate_append (k : ℕ) :
    countWithin s t (List.replicate k now ++ times) = (if s ≤ now ∧ now ≤ t then k else 0) + countWithin s t times := by
  simp only [countWithin, List.countP_append, List.countP_replicate, decide_eq_true_eq]

theorem countWithin_le_countSince (s t : ℤ) (times : List ℤ) : countWithin s t times ≤ countSince s times := by
  refine List.countP_mono_left (fun x _ h => ?_)
  simp only [decide_eq_true_eq] at h ⊢
  exact h.1

/-- What has been taken since a time after the last draw. -/
theorem countSince_eq_zero (h : ∀ x ∈ times, x < s) : countSince s times = 0 := by
  rw [countSince, List.countP_eq_zero]
  intro x hx
  simpa using h x hx

/-- **A draw** by a clock that has not gone back, of no more than there is. -/
theorem Bucket.Kept.draw (hr : 0 ≤ r) (hp : 0 ≤ p) (h : b.Kept r p times) (hnow : b.since ≤ now) {k : ℕ}
    (hk : (k : ℚ) ≤ b.level r p now) :
    Bucket.Kept r p ⟨b.level r p now - k, now⟩ (List.replicate k now ++ times) := by
  have hpast : ∀ x ∈ List.replicate k now ++ times, x ≤ now := by
    intro x hx
    rcases List.mem_append.mp hx with hx | hx
    · exact (List.eq_of_mem_replicate hx).le
    · exact (h.past x hx).trans hnow
  have hspent : ∀ s ≤ now, (countSince s (List.replicate k now ++ times) : ℚ) + (b.level r p now - k) ≤
      r + r * (now - s) / p := by
    intro s hs
    rw [countSince_replicate_append, if_pos hs]
    push_cast
    by_cases hb : s ≤ b.since
    · have h₁ := h.spent s hb
      have h₂ := b.level_le_add (r := r) (p := p) hnow
      have hsum : r * (now - s) / p = r * (b.since - s) / p + r * (now - b.since) / p := by ring
      linarith
    · -- nothing was taken since then, and the bucket is at most full
      rw [countSince_eq_zero (fun x hx => lt_of_le_of_lt (h.past x hx) (not_le.mp hb))]
      have hlen : (0 : ℚ) ≤ now - s := by exact_mod_cast sub_nonneg.mpr hs
      have hgain : 0 ≤ r * (now - s) / p := by positivity
      have hfull := b.level_le (r := r) (p := p) now
      push_cast
      linarith
  refine ⟨sub_nonneg.mpr hk, ?_, hpast, hspent, fun s t hst => ?_⟩
  · have hfull := b.level_le (r := r) (p := p) now
    have hk0 : (0 : ℚ) ≤ k := Nat.cast_nonneg k
    show b.level r p now - k ≤ r
    linarith
  · by_cases hin : s ≤ now ∧ now ≤ t
    · have hle : (countWithin s t (List.replicate k now ++ times) : ℚ) ≤ countSince s (List.replicate k now ++ times) := by
        exact_mod_cast countWithin_le_countSince s t _
      have hlen : r * (now - s) / p ≤ r * (t - s) / p := by
        have hnt : (now : ℚ) ≤ t := by exact_mod_cast hin.2
        gcongr
      have hleft := hspent s hin.1
      linarith
    · rw [countWithin_replicate_append, if_neg hin, Nat.zero_add]
      exact h.windows s t hst

/-- Tokens that were taken for nothing may be forgotten. -/
theorem Bucket.Kept.forget {times' : List ℤ} (h : b.Kept r p times) (hs : times'.Sublist times) : b.Kept r p times' where
  nonneg := h.nonneg
  full := h.full
  past x hx := h.past x (hs.subset hx)
  spent s hb := by
    have hle : (countSince s times' : ℚ) ≤ countSince s times := by exact_mod_cast hs.countP_le
    have hspent := h.spent s hb
    linarith
  windows s t hst := by
    have hle : (countWithin s t times' : ℚ) ≤ countWithin s t times := by exact_mod_cast hs.countP_le
    exact hle.trans (h.windows s t hst)

/-- The draws are all in the window. -/
theorem countWithin_eq_length (h : ∀ x ∈ times, s ≤ x ∧ x ≤ t) : countWithin s t times = times.length := by
  rw [countWithin, List.countP_eq_length]
  intro x hx
  simpa using h x hx

end Bucket

end Eddyq.Lib
