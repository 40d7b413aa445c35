import OrbisCompat.Clock.Basic
import Mathlib.Tactic.Linarith

/-!
# The monotonic clock is exact and monotone

The two places of the time are the digits of a quotient (`Radix.value_ediv`), so no precision is lost with the remainder that is
scaled alone.  It fits into 64 bits up to 18446744074 ticks per second.  The seconds fit into a `time_t` at every
frequency from 2 on.
-/

namespace OrbisCompat.Clock

open OrbisCompat.Umtx OrbisCompat.Umtx.Timespec

variable {b : ClockBase} {k : Kernel} {t u : Timespec} {x : UInt64}

/-! ### Machine words -/

theorem toInt_toInt64 (h : x.toNat < 2 ^ 63) : x.toInt64.toInt = x.toNat := by
  show x.toBitVec.toInt = x.toNat
  rw [BitVec.toInt_eq_toNat_of_lt]
  · rfl
  · show 2 * x.toNat < 2 ^ 64
    omega

/-! ### The order of the times -/

/-- `t` is not after `u`: the seconds decide, and then the nanoseconds. -/
def NotAfter (t u : Timespec) : Prop := t.sec < u.sec ∨ t.sec = u.sec ∧ t.nsec ≤ u.nsec

instance (t u : Timespec) : Decidable (NotAfter t u) := inferInstanceAs (Decidable (_ ∨ _))

theorem notAfter_of_nanos_le (ht : t.Normalised) (hu : u.Normalised) (h : t.nanos ≤ u.nanos) : NotAfter t u := by
  have hnot : ¬u.nanos < t.nanos := h.not_gt
  unfold nanos at hnot
  rw [Radix.value_lt_iff _ _ hu ht, not_or] at hnot
  obtain ⟨hsec, hnsec⟩ := hnot
  unfold NotAfter
  rw [Int64.lt_iff_toInt_lt, Int64.le_iff_toInt_le, ← Int64.toInt_inj]
  omega

/-! ### The time of a reading -/

/-- The ticks since the first use. -/
def ticks (b : ClockBase) (k : Kernel) : ℤ := k.counter.toNat - b.origin.toNat

/-- The time of a reading, in nanoseconds. -/
def elapsed (b : ClockBase) (k : Kernel) : ℤ := ticks b k * second / b.freq.toNat

/-- The largest frequency at which a remainder that is scaled fits. -/
def maxFreq : ℕ := 18446744074

theorem scaled_lt {f r : ℕ} (hmax : f ≤ maxFreq) (hr : r < f) : r * 1000000000 < 2 ^ 64 := by
  unfold maxFreq at hmax
  omega

/-- The time is the exact one, rounded down. -/
structure Exact (b : ClockBase) (k : Kernel) (t : Timespec) : Prop where
  normalised : t.Normalised
  nanos_eq : t.nanos = elapsed b k
  /-- The product does not overflow. -/
  scaled : (k.counter - b.origin).toNat % b.freq.toNat * 1000000000 < 2 ^ 64

/-- The condition on a reading: it is not before the first use, and its seconds fit. -/
structure Valid (b : ClockBase) (k : Kernel) : Prop where
  origin_le : b.origin ≤ k.counter
  fits : b.freq = 1 → (k.counter - b.origin).toNat < 2 ^ 63

theorem Valid.toNat_sub (h : Valid b k) : ((k.counter - b.origin).toNat : ℤ) = ticks b k := by
  have hle := UInt64.le_iff_toNat_le.mp h.origin_le
  rw [UInt64.toNat_sub_of_le _ _ h.origin_le, ticks]
  omega

section

variable (hfreq : 1 ≤ b.freq) (hmax : b.freq.toNat ≤ maxFreq) (h : Valid b k)

include hfreq

theorem freq_pos : 0 < b.freq.toNat := UInt64.le_iff_toNat_le.mp hfreq

include h in
/-- The seconds, without a wrap. -/
theorem toInt_sec : ((k.counter - b.origin) / b.freq).toInt64.toInt = ticks b k / b.freq.toNat := by
  have hpos := freq_pos hfreq
  have hlt := (k.counter - b.origin).toNat_lt
  rw [toInt_toInt64, UInt64.toNat_div, Int.natCast_ediv, h.toNat_sub]
  rw [UInt64.toNat_div]
  by_cases hone : b.freq = 1
  · rw [hone]
    exact (Nat.div_le_self _ _).trans_lt (h.fits hone)
  · -- half of a word is left at most
    have htwo : 2 ≤ b.freq.toNat := by
      have hne : b.freq.toNat ≠ 1 := fun heq => hone (UInt64.toNat_inj.mp heq)
      omega
    have hle := Nat.div_le_div_left (a := (k.counter - b.origin).toNat) htwo (by norm_num)
    omega

include h hmax in
/-- The nanoseconds, without an overflow. -/
theorem toInt_nsec :
    ((k.counter - b.origin) % b.freq * 1000000000 / b.freq).toInt64.toInt =
      ticks b k % b.freq.toNat * second / b.freq.toNat := by
  have hpos := freq_pos hfreq
  have hrem := Nat.mod_lt (k.counter - b.origin).toNat hpos
  have hword : ((k.counter - b.origin) % b.freq * 1000000000 / b.freq).toNat =
      (k.counter - b.origin).toNat % b.freq.toNat * 1000000000 / b.freq.toNat := by
    have hscale : UInt64.toNat 1000000000 = 1000000000 := rfl
    rw [UInt64.toNat_div, UInt64.toNat_mul, UInt64.toNat_mod, hscale, Nat.mod_eq_of_lt (scaled_lt hmax hrem)]
  -- a remainder is less than a second
  have hlt : (k.counter - b.origin).toNat % b.freq.toNat * 1000000000 / b.freq.toNat < 2 ^ 63 := by
    have hdigit : (k.counter - b.origin).toNat % b.freq.toNat * 1000000000 / b.freq.toNat < 1000000000 := by
      rw [Nat.div_lt_iff_lt_mul hpos, mul_comm 1000000000]
      exact Nat.mul_lt_mul_of_pos_right hrem (by norm_num)
    omega
  rw [toInt_toInt64 (hword ▸ hlt), hword, Int.natCast_ediv, Int.natCast_mul, Int.natCast_emod, h.toNat_sub]
  rfl

end

theorem exact_monotonicNow (hfreq : 1 ≤ b.freq) (hmax : b.freq.toNat ≤ maxFreq) (h : Valid b k) :
    Exact b k (monotonicNow (some b) k).1 := by
  have hne : b.freq ≠ 0 := by
    rintro h0
    rw [h0] at hfreq
    exact absurd hfreq (by decide)
  have hpos := freq_pos hfreq
  unfold monotonicNow clockBase
  dsimp only [Option.getD_some]
  rw [if_neg hne]
  have hsec := toInt_sec hfreq h
  have hnsec := toInt_nsec hfreq hmax h
  refine ⟨?_, ?_, scaled_lt hmax (Nat.mod_lt _ hpos)⟩
  · show Radix.Digit second _
    rw [hnsec]
    exact Radix.digit_ediv (by norm_num) (by exact_mod_cast hpos)
  · show Radix.value second _ _ = _
    rw [hsec, hnsec]
    exact Radix.value_ediv (by exact_mod_cast hpos)

/-! ### Two readings -/

theorem elapsed_mono (hfreq : 1 ≤ b.freq) {k' : Kernel} (h : k.counter ≤ k'.counter) : elapsed b k ≤ elapsed b k' := by
  have hle := UInt64.le_iff_toNat_le.mp h
  unfold elapsed
  apply Int.ediv_le_ediv
  · exact_mod_cast freq_pos hfreq
  · apply mul_le_mul_of_nonneg_right _ (by norm_num)
    unfold ticks
    omega

theorem notAfter_monotonicNow (hfreq : 1 ≤ b.freq) (hmax : b.freq.toNat ≤ maxFreq) (h : Valid b k) {k' : Kernel}
    (h' : Valid b k') (hle : k.counter ≤ k'.counter) :
    NotAfter (monotonicNow (some b) k).1 (monotonicNow (some b) k').1 := by
  have hexact := exact_monotonicNow hfreq hmax h
  have hexact' := exact_monotonicNow hfreq hmax h'
  apply notAfter_of_nanos_le hexact.normalised hexact'.normalised
  rw [hexact.nanos_eq, hexact'.nanos_eq]
  exact elapsed_mono hfreq hle

/-- **The monotonic clock** is exact and monotone: for every frequency at which no product overflows, every origin, and any two
readings that are not before it and whose seconds fit into a `time_t`. -/
theorem monotonicNow_exact (b : ClockBase) (k₁ k₂ : Kernel) (hfreq : 1 ≤ b.freq) (hmax : b.freq.toNat ≤ maxFreq)
    (h₁ : b.origin ≤ k₁.counter) (h : k₁.counter ≤ k₂.counter)
    (hfits : b.freq = 1 → (k₂.counter - b.origin).toNat < 2 ^ 63) :
    Exact b k₁ (monotonicNow (some b) k₁).1 ∧ Exact b k₂ (monotonicNow (some b) k₂).1 ∧
      NotAfter (monotonicNow (some b) k₁).1 (monotonicNow (some b) k₂).1 := by
  have hvalid₂ : Valid b k₂ := ⟨UInt64.le_trans h₁ h, hfits⟩
  -- the seconds of the first reading fit because those of the second do
  have hvalid₁ : Valid b k₁ := by
    refine ⟨h₁, fun hone => lt_of_le_of_lt ?_ (hfits hone)⟩
    rw [UInt64.toNat_sub_of_le _ _ h₁, UInt64.toNat_sub_of_le _ _ hvalid₂.origin_le]
    exact Nat.sub_le_sub_right (UInt64.le_iff_toNat_le.mp h) _
  exact ⟨exact_monotonicNow hfreq hmax hvalid₁, exact_monotonicNow hfreq hmax hvalid₂,
    notAfter_monotonicNow hfreq hmax hvalid₁ hvalid₂ h⟩

/-- A counter at 80 MHz that started at 5, a tick and a second later. -/
theorem monotonicNow_exact_80_mhz :
    Exact ⟨80000000, 5⟩ ⟨80000000, 5, 6, 0⟩ ⟨0, 12⟩ ∧ Exact ⟨80000000, 5⟩ ⟨80000000, 5, 80000005, 0⟩ ⟨1, 0⟩ ∧
      NotAfter ⟨0, 12⟩ ⟨1, 0⟩ :=
  monotonicNow_exact ⟨80000000, 5⟩ ⟨80000000, 5, 6, 0⟩ ⟨80000000, 5, 80000005, 0⟩ (by decide) (by decide) (by decide)
    (by decide) (by decide)

/-- At one tick a second the seconds of half of the readings are negative; and a remainder fits at a tick a second more than
`2 ^ 64` nanoseconds have seconds. -/
theorem monotonicNow_wraps :
    (monotonicNow (some ⟨1, 0⟩) ⟨1, 0, 0x8000000000000000, 0⟩).1 = ⟨Int64.minValue, 0⟩ ∧
      elapsed ⟨1, 0⟩ ⟨1, 0, 0x8000000000000000, 0⟩ = 0x8000000000000000 * second ∧
      ¬NotAfter (monotonicNow (some ⟨1, 0⟩) ⟨1, 0, 0, 0⟩).1
        (monotonicNow (some ⟨1, 0⟩) ⟨1, 0, 0x8000000000000000, 0⟩).1 ∧
      ∀ d : UInt64, d.toNat % (18446744073 + 1) * 1000000000 < 2 ^ 64 := by
  refine ⟨by decide +kernel, by decide +kernel, by decide +kernel, fun d => ?_⟩
  exact scaled_lt le_rfl (Nat.mod_lt _ (by norm_num))

/-! ### A run -/

/-- The base stays what it is at the first use. -/
theorem times_some (b : ClockBase) (ks : List Kernel) :
    times (some b) ks = ks.map fun k => (monotonicNow (some b) k).1 := by
  have hbase : ∀ k, (monotonicNow (some b) k).2 = b := by
    intro k
    unfold monotonicNow clockBase
    dsimp only [Option.getD_some]
    split_ifs <;> rfl
  induction ks with
  | nil => rfl
  | cons k ks ih => rw [times, hbase, ih, List.map_cons]

theorem times_none (k : Kernel) (ks : List Kernel) :
    times none (k :: ks) = times (some ⟨k.frequency, k.first⟩) (k :: ks) := rfl

/-- **No time of a run** is after a later one, while the counter does not run backwards. -/
theorem pairwise_times {ks : List Kernel} (hfreq : 1 ≤ b.freq) (hmax : b.freq.toNat ≤ maxFreq)
    (hvalid : ∀ k ∈ ks, Valid b k) (hks : ks.Pairwise fun k k' => k.counter ≤ k'.counter) :
    (times (some b) ks).Pairwise NotAfter := by
  rw [times_some, List.pairwise_map]
  exact hks.imp_of_mem fun hk hk' hle => notAfter_monotonicNow hfreq hmax (hvalid _ hk) (hvalid _ hk') hle

/-! ### Without a counter -/

/-- Where there is no frequency, the time is that of the process, in microseconds. -/
theorem monotonicNow_fallback (h : b.freq = 0) :
    (monotonicNow (some b) k).1.Normalised ∧ (monotonicNow (some b) k).1.nanos = k.processTime.toNat * 1000 := by
  have hlt := k.processTime.toNat_lt
  have hsec : (k.processTime / 1000000).toNat = k.processTime.toNat / 1000000 := UInt64.toNat_div _ _
  have hnsec : (k.processTime % 1000000 * 1000).toNat = k.processTime.toNat % 1000000 * 1000 := by
    have hword : (k.processTime % 1000000).toNat = k.processTime.toNat % 1000000 := UInt64.toNat_mod _ _
    rw [UInt64.toNat_mul, hword]
    exact Nat.mod_eq_of_lt (show k.processTime.toNat % 1000000 * 1000 < 2 ^ 64 by omega)
  have hsec' : (k.processTime / 1000000).toInt64.toInt = (k.processTime.toNat / 1000000 : ℕ) := by
    rw [toInt_toInt64 (by omega), hsec]
  have hnsec' : (k.processTime % 1000000 * 1000).toInt64.toInt = (k.processTime.toNat % 1000000 * 1000 : ℕ) := by
    rw [toInt_toInt64 (by omega), hnsec]
  unfold monotonicNow clockBase
  dsimp only [Option.getD_some]
  rw [if_pos h]
  constructor
  · show Radix.Digit second _
    rw [hnsec']
    unfold Radix.Digit second
    omega
  · show Radix.value second _ _ = _
    rw [hsec', hnsec']
    unfold Radix.value second
    omega

end OrbisCompat.Clock
