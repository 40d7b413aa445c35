import Mathlib.Data.Nat.Bitwise
import Mathlib.Tactic.NormNum

/-!
# 32-bit unsigned arithmetic on `ℕ`

The operations a C `unsigned` has, on naturals below `2 ^ 32`, and the right shift of an `int` with the same
bits.
-/

namespace Word32

/-- `a - b` on 32-bit words. -/
def sub (a b : ℕ) : ℕ := (a + 2 ^ 32 - b) % 2 ^ 32

/-- `a << k` on 32-bit words. -/
def shl (a k : ℕ) : ℕ := (a <<< k) % 2 ^ 32

/-- `(int32_t)a >> k`, as a 32-bit word. -/
def sar (a k : ℕ) : ℕ := if a < 2 ^ 31 then a >>> k else a >>> k + (2 ^ 32 - 2 ^ (32 - k))

/-- `~a` on 32-bit words. -/
def not (a : ℕ) : ℕ := 2 ^ 32 - 1 - a

/-- `(int32_t)a`. -/
def toInt (a : ℕ) : ℤ := if a < 2 ^ 31 then a else a - 2 ^ 32

theorem sub_of_le {a b : ℕ} (h : b ≤ a) (ha : a < 2 ^ 32) : sub a b = a - b := by
  unfold sub
  omega

/-- Six bits put in at the bottom. -/
theorem shl_or {a t : ℕ} (ht : t < 2 ^ 6) : shl a 6 ||| t = shl a 6 + t := by
  have hmul : shl a 6 = 2 ^ 6 * (a % 2 ^ 26) := by
    unfold shl
    rw [Nat.shiftLeft_eq]
    omega
  rw [hmul, Nat.two_pow_add_eq_or_of_lt ht]

/-- A bit, read by its mask. -/
theorem and_two_pow_eq_zero {a k : ℕ} : a &&& 2 ^ k = 0 ↔ a / 2 ^ k % 2 = 0 := by
  have hpos := Nat.two_pow_pos k
  rw [Nat.and_two_pow, Nat.testBit_eq_decide_div_mod_eq]
  by_cases h : a / 2 ^ k % 2 = 1
  · simp [h]
  · have h0 : a / 2 ^ k % 2 = 0 := by omega
    simp [h0]

end Word32
