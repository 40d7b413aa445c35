import Mathlib.Data.Nat.Bitwise
import Mathlib.Tactic.NormNum

/-!
# 64-bit unsigned arithmetic on `ℕ`

Addresses, lengths and offsets are naturals below `2 ^ 64`; the operations here are the machine's,
so a sum or a difference that does not fit is reduced modulo `2 ^ 64`.

`alignUp n unit` is the mask idiom `(n + (unit - 1)) & ~(unit - 1)`.  For a power of two it rounds
`n + (unit - 1)`, reduced modulo `2 ^ 64`, down to a multiple of `unit` (`alignUp_two_pow`).
-/

namespace Word64

/-- `a + b` on 64-bit words. -/
def add (a b : ℕ) : ℕ := (a + b) % 2 ^ 64

/-- `a - b` on 64-bit words. -/
def sub (a b : ℕ) : ℕ := (a + 2 ^ 64 - b) % 2 ^ 64

/-- `~a` on 64-bit words. -/
def not (a : ℕ) : ℕ := 2 ^ 64 - 1 - a

/-- `(n + (unit - 1)) & ~(unit - 1)` on 64-bit words. -/
def alignUp (n unit : ℕ) : ℕ := add n (unit - 1) &&& not (unit - 1)

theorem add_lt (a b : ℕ) : add a b < 2 ^ 64 := Nat.mod_lt _ (by norm_num)

theorem add_of_lt {a b : ℕ} (h : a + b < 2 ^ 64) : add a b = a + b := Nat.mod_eq_of_lt h

theorem sub_of_le {a b : ℕ} (h : b ≤ a) (ha : a < 2 ^ 64) : sub a b = a - b := by
  unfold sub; omega

/-- Masking with `2 ^ 64 - 2 ^ k` clears the low `k` bits. -/
theorem and_high_mask {x k : ℕ} (hx : x < 2 ^ 64) (hk : k ≤ 64) :
    x &&& (2 ^ 64 - 1 - (2 ^ k - 1)) = x / 2 ^ k * 2 ^ k := by
  have hlt : 2 ^ k - 1 < 2 ^ 64 := by
    have := Nat.pow_le_pow_right (n := 2) (by norm_num) hk
    have := Nat.two_pow_pos k
    omega
  apply Nat.eq_of_testBit_eq
  intro i
  rw [Nat.testBit_and, show 2 ^ 64 - 1 - (2 ^ k - 1) = 2 ^ 64 - (2 ^ k - 1 + 1) by omega,
    Nat.testBit_two_pow_sub_succ hlt, Nat.testBit_two_pow_sub_one, Nat.testBit_mul_two_pow,
    Nat.testBit_div_two_pow]
  by_cases hki : k ≤ i
  · by_cases hi : i < 64
    · simp [hki, hi, Nat.sub_add_cancel hki]
    · have : x.testBit i = false :=
        Nat.testBit_eq_false_of_lt (lt_of_lt_of_le hx (Nat.pow_le_pow_right (by norm_num) (by omega)))
      simp [hki, this, Nat.sub_add_cancel hki]
  · simp [hki, Nat.not_le.mp hki]

theorem alignUp_two_pow {n k : ℕ} (hk : k ≤ 64) :
    alignUp n (2 ^ k) = (n + (2 ^ k - 1)) % 2 ^ 64 / 2 ^ k * 2 ^ k :=
  and_high_mask (add_lt _ _) hk

section PowerOfTwo

variable {n k : ℕ}

theorem dvd_alignUp (hk : k ≤ 64) : 2 ^ k ∣ alignUp n (2 ^ k) := by
  rw [alignUp_two_pow hk]; exact Nat.dvd_mul_left _ _

/-- Below the wrap the rounding is the usual ceiling. -/
theorem alignUp_of_lt (hk : k ≤ 64) (hn : n + (2 ^ k - 1) < 2 ^ 64) :
    alignUp n (2 ^ k) = (n + (2 ^ k - 1)) / 2 ^ k * 2 ^ k := by
  rw [alignUp_two_pow hk, Nat.mod_eq_of_lt hn]

theorem alignUp_lt_two_pow (n unit : ℕ) : alignUp n unit < 2 ^ 64 :=
  lt_of_le_of_lt Nat.and_le_left (add_lt _ _)

end PowerOfTwo

end Word64
