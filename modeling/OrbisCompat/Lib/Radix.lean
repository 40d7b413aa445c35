import Mathlib.Algebra.Order.Ring.Int
import Mathlib.Data.Int.ModEq
import Mathlib.Tactic.Linarith
import Mathlib.Tactic.Ring

/-!
# Numbers of two places

`value b hi lo` is the number `hi * b + lo`, with `lo` a digit of the base `b` when `0 ≤ lo < b`: a time in
seconds and nanoseconds is one of base `10 ^ 9`.  The first place may be negative.

Numbers with digits in their second place are ordered as their places are (`value_lt_iff`).  A sum of digits is
a digit or one carry above it (`value_carry`, `digit_carry`), a difference one or one borrow below it
(`value_borrow`, `digit_borrow`).

A first place that wraps at `2 * M` changes the number by a multiple of `2 * M * b` (`value_bmod`), and a number
that is within the range of such first places is the one that was meant exactly when that one is within it
(`eq_iff_of_modEq`).
-/

namespace Radix

/-- The number of the places `hi` and `lo`. -/
def value (b hi lo : ℤ) : ℤ := hi * b + lo

/-- A digit of the base. -/
def Digit (b lo : ℤ) : Prop := 0 ≤ lo ∧ lo < b

instance (b lo : ℤ) : Decidable (Digit b lo) := inferInstanceAs (Decidable (_ ∧ _))

variable {b hi lo hi' lo' : ℤ}

/-- The first place decides, and then the second. -/
theorem value_lt_iff (hi hi' : ℤ) (h : Digit b lo) (h' : Digit b lo') :
    value b hi lo < value b hi' lo' ↔ hi < hi' ∨ hi = hi' ∧ lo < lo' := by
  unfold value
  obtain ⟨h0, hb⟩ := h
  obtain ⟨h0', hb'⟩ := h'
  rcases lt_trichotomy hi hi' with hlt | rfl | hgt
  · have : (hi + 1) * b ≤ hi' * b := by
      apply mul_le_mul_of_nonneg_right hlt
      exact h0.trans hb.le
    refine iff_of_true ?_ (Or.inl hlt)
    linarith
  · simp
  · have : (hi' + 1) * b ≤ hi * b := by
      apply mul_le_mul_of_nonneg_right hgt
      exact h0.trans hb.le
    refine iff_of_false ?_ fun h => ?_
    · linarith
    · rcases h with h | h
      · exact absurd hgt h.not_gt
      · exact absurd h.1 hgt.ne'

/-- A carry keeps the number. -/
theorem value_carry : value b (hi + 1) (lo - b) = value b hi lo := by
  unfold value
  ring

/-- A borrow keeps the number. -/
theorem value_borrow : value b (hi - 1) (lo + b) = value b hi lo := by
  unfold value
  ring

theorem value_add : value b (hi + hi') (lo + lo') = value b hi lo + value b hi' lo' := by
  unfold value
  ring

theorem value_sub : value b (hi - hi') (lo - lo') = value b hi lo - value b hi' lo' := by
  unfold value
  ring

theorem digit_carry (h : Digit b lo) (h' : Digit b lo') (hc : b ≤ lo + lo') :
    Digit b (lo + lo' - b) := by
  unfold Digit at *
  omega

theorem digit_of_not_carry (h : Digit b lo) (h' : Digit b lo') (hc : ¬ b ≤ lo + lo') :
    Digit b (lo + lo') := by
  unfold Digit at *
  omega

theorem digit_borrow (h : Digit b lo) (h' : Digit b lo') (hc : lo - lo' < 0) :
    Digit b (lo - lo' + b) := by
  unfold Digit at *
  omega

theorem digit_of_not_borrow (h : Digit b lo) (h' : Digit b lo') (hc : ¬ lo - lo' < 0) :
    Digit b (lo - lo') := by
  unfold Digit at *
  omega

/-- A number is negative when its first place is. -/
theorem value_neg_iff (h : Digit b lo) : value b hi lo < 0 ↔ hi < 0 := by
  have h0 : Digit b 0 := ⟨le_rfl, h.1.trans_lt h.2⟩
  have hiff := value_lt_iff hi 0 h h0
  rw [show value b 0 0 = 0 by simp [value]] at hiff
  rw [hiff]
  refine or_iff_left fun hand => ?_
  exact absurd h.1 hand.2.not_ge

/-! ### The places of a quotient -/

variable {d f : ℤ}

/-- The places of `d / f`, from the quotient and the remainder. -/
theorem value_ediv (hf : 0 < f) : value b (d / f) (d % f * b / f) = d * b / f := by
  have hsplit : d * b = d % f * b + d / f * b * f := by
    calc d * b
      _ = (d % f + f * (d / f)) * b := by rw [Int.emod_add_mul_ediv]
      _ = d % f * b + d / f * b * f := by ring
  rw [hsplit, Int.add_mul_ediv_right _ _ hf.ne', value, add_comm]

theorem digit_ediv (hb : 0 < b) (hf : 0 < f) : Digit b (d % f * b / f) := by
  have hrem := Int.emod_nonneg d hf.ne'
  constructor
  · exact Int.ediv_nonneg (mul_nonneg hrem hb.le) hf.le
  · apply Int.ediv_lt_of_lt_mul hf
    have hlt := mul_lt_mul_of_pos_right (Int.emod_lt_of_pos d hf) hb
    rwa [mul_comm f b] at hlt

/-! ### Places that are cut towards zero -/

/-- A first place that wraps. -/
theorem value_bmod (b hi lo : ℤ) (m : ℕ) : value b (hi.bmod m) lo ≡ value b hi lo [ZMOD m * b] := by
  have hhi : hi.bmod m ≡ hi [ZMOD m] := Int.bmod_emod
  exact (hhi.mul_right' (c := b)).add_right lo

/-- The range of the numbers whose first place is from `-M` to `M - 1`. -/
theorem value_mem {M : ℤ} (h : Digit b lo) (hM : -M ≤ hi) (hM' : hi < M) :
    -(M * b) ≤ value b hi lo ∧ value b hi lo < M * b := by
  have hb : 0 ≤ b := h.1.trans h.2.le
  have hlow := mul_le_mul_of_nonneg_right hM hb
  have hhigh := mul_le_mul_of_nonneg_right (Int.add_one_le_of_lt hM') hb
  obtain ⟨h0, hlt⟩ := h
  unfold value
  constructor <;> linarith

/-- Of two numbers that differ by wraps, with the first one within the range. -/
theorem eq_iff_of_modEq {W x y : ℤ} (h : x ≡ y [ZMOD 2 * W]) (hx : -W ≤ x ∧ x < W) :
    x = y ↔ -W ≤ y ∧ y < W := by
  constructor
  · rintro rfl
    exact hx
  · intro hy
    have hdvd : 2 * W ∣ y - x := Int.modEq_iff_dvd.mp h
    have habs : |y - x| < 2 * W := by
      rw [abs_lt]
      constructor <;> linarith [hx.1, hx.2, hy.1, hy.2]
    exact (sub_eq_zero.mp (Int.eq_zero_of_abs_lt_dvd hdvd habs)).symm

end Radix
