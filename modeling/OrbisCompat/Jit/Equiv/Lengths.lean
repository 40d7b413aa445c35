import OrbisCompat.Jit.Basic

/-!
# The lengths `orbis_jit_alloc` and `orbis_jit_alloc_at` work with

The block length is exact below `2 ^ 64 - 128` bytes, and from there on it wraps: to `0` for sizes
that round up to `2 ^ 64 - 64`, and to one unit for sizes that round up past the top
(`orbisJitBlockLen_wrap`).
-/

namespace OrbisCompat.Jit

theorem orbisJitRound_align (n : ℕ) :
    orbisJitRound n orbisJitAlign = (n + 63) % 2 ^ 64 / 64 * 64 :=
  Word64.alignUp_two_pow (k := 6) (by norm_num)

theorem orbisJitRound_granule (n : ℕ) :
    orbisJitRound n orbisJitGranule = (n + 16383) % 2 ^ 64 / 16384 * 16384 :=
  Word64.alignUp_two_pow (k := 14) (by norm_num)

/-- The largest size whose block length does not wrap. -/
def orbisJitMaxSize : ℕ := 2 ^ 64 - 128

theorem orbisJitBlockLen_spec {size : ℕ} (h : size ≤ orbisJitMaxSize) :
    size + 64 ≤ orbisJitBlockLen size ∧ 128 ≤ orbisJitBlockLen size ∧
      64 ∣ orbisJitBlockLen size ∧ orbisJitBlockLen size < 2 ^ 64 := by
  unfold orbisJitMaxSize at h
  unfold orbisJitBlockLen
  rw [orbisJitRound_align]
  unfold Word64.add orbisJitAlign
  split_ifs <;> omega

theorem orbisJitBlockLen_wrap {size : ℕ} (h : orbisJitMaxSize < size) (hlt : size < 2 ^ 64) :
    orbisJitBlockLen size ≤ 64 := by
  unfold orbisJitMaxSize at h
  unfold orbisJitBlockLen
  rw [if_pos (by omega), orbisJitRound_align]
  unfold Word64.add orbisJitAlign
  omega

theorem orbisJitMapLen_spec (size : ℕ) :
    16384 ∣ orbisJitMapLen size ∧ orbisJitMapLen size < 2 ^ 64 := by
  unfold orbisJitMapLen
  rw [orbisJitRound_granule]
  split_ifs <;> omega

/-- An arena is never smaller than the request that triggered it, unless its length wraps to `0`. -/
theorem orbisJitArenaSize_spec (mb : Option ℤ) {len : ℕ} (hlen : len < 2 ^ 64) :
    16384 ∣ orbisJitArenaSize mb len ∧ orbisJitArenaSize mb len < 2 ^ 64 ∧
      (orbisJitArenaSize mb len = 0 ∨ len ≤ orbisJitArenaSize mb len) := by
  have key : ∀ want ≤ 2 ^ 29,
      16384 ∣ orbisJitRound (if len > want then len else want) orbisJitGranule ∧
        orbisJitRound (if len > want then len else want) orbisJitGranule < 2 ^ 64 ∧
        (orbisJitRound (if len > want then len else want) orbisJitGranule = 0 ∨
          len ≤ orbisJitRound (if len > want then len else want) orbisJitGranule) := by
    intro want hwant
    rw [orbisJitRound_granule]
    split_ifs <;> omega
  unfold orbisJitArenaSize
  cases mb with
  | none => exact key _ (by norm_num)
  | some v =>
    by_cases hv : 0 < v ∧ v ≤ 512
    · simp only [if_pos hv]
      exact key _ (by have := hv.2; generalize hn : v.toNat = n; omega)
    · simp only [if_neg hv]
      exact key _ (by norm_num)

end OrbisCompat.Jit
