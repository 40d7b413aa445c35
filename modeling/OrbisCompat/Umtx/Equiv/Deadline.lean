import Mathlib.Tactic.NormNum
import OrbisCompat.Umtx.Deadline

/-!
# The deadline of a timed wait

The subtraction with its borrow and the addition with its carry are exact up to wraps of `tv_sec`
(`remaining_modEq`, `after_modEq`), and a time that is congruent to the exact one is the exact one when this fits
into a `timespec` (`nanos_eq_iff`).  So the conversion is exact when the interval and the deadline both fit
(`converted_iff`), and otherwise it is not: an "infinite" timeout on a clock that runs behind the condition
variables' one wraps into the past.
-/

namespace OrbisCompat.Umtx

/-- What wraps in a `tv_sec`, in nanoseconds. -/
abbrev wrap : ℤ := 2 * (2 ^ 63 * Timespec.second)

theorem value_toInt_bmod (n lo : ℤ) :
    Radix.value Timespec.second (n.bmod (2 ^ 64)) lo ≡ Radix.value Timespec.second n lo [ZMOD wrap] := by
  have h := Radix.value_bmod Timespec.second n lo (2 ^ 64)
  rwa [show ((2 ^ 64 : ℕ) : ℤ) * Timespec.second = wrap by norm_num] at h

theorem toInt_second : (1000000000 : Int64).toInt = Timespec.second := by decide

/-- Small sums and differences do not wrap. -/
theorem bmod_of_small {n : ℤ} (h : -(2 * Timespec.second) ≤ n) (h' : n < 2 * Timespec.second) :
    n.bmod (2 ^ 64) = n := by
  apply Int.bmod_eq_of_le
  · norm_num at h ⊢
    linarith
  · norm_num at h' ⊢
    linarith

namespace Timespec

variable {t u : Timespec}

theorem representable (h : t.Normalised) : Representable t.nanos :=
  Radix.value_mem h t.sec.le_toInt t.sec.toInt_lt

/-- A time up to wraps is the exact one when this fits. -/
theorem nanos_eq_iff {n : ℤ} (h : t.Normalised) (hn : t.nanos ≡ n [ZMOD wrap]) :
    t.nanos = n ↔ Representable n := Radix.eq_iff_of_modEq hn (representable h)

theorem toInt_nsec_add (ht : t.Normalised) (hu : u.Normalised) :
    (t.nsec + u.nsec).toInt = t.nsec.toInt + u.nsec.toInt := by
  obtain ⟨ht0, ht1⟩ := ht
  obtain ⟨hu0, hu1⟩ := hu
  rw [Int64.toInt_add]
  apply bmod_of_small <;> linarith

theorem toInt_nsec_sub (ht : t.Normalised) (hu : u.Normalised) :
    (t.nsec - u.nsec).toInt = t.nsec.toInt - u.nsec.toInt := by
  obtain ⟨ht0, ht1⟩ := ht
  obtain ⟨hu0, hu1⟩ := hu
  rw [Int64.toInt_sub]
  apply bmod_of_small <;> linarith

/-- The digit behind a carry. -/
theorem toInt_nsec_carried (ht : t.Normalised) (hu : u.Normalised)
    (hc : second ≤ t.nsec.toInt + u.nsec.toInt) :
    (t.nsec + u.nsec - 1000000000).toInt = t.nsec.toInt + u.nsec.toInt - second := by
  have hd := Radix.digit_carry ht hu hc
  rw [Int64.toInt_sub, toInt_nsec_add ht hu, toInt_second]
  apply bmod_of_small <;> linarith [hd.1, hd.2]

/-- The digit behind a borrow. -/
theorem toInt_nsec_borrowed (ht : t.Normalised) (hu : u.Normalised)
    (hc : t.nsec.toInt - u.nsec.toInt < 0) :
    (t.nsec - u.nsec + 1000000000).toInt = t.nsec.toInt - u.nsec.toInt + second := by
  have hd := Radix.digit_borrow ht hu hc
  rw [Int64.toInt_add, toInt_nsec_sub ht hu, toInt_second]
  apply bmod_of_small <;> linarith [hd.1, hd.2]

end Timespec

open Timespec

/-! ### The addition -/

section After

variable {base rel : Timespec}

theorem normalised_after (hb : base.Normalised) (hr : rel.Normalised) : (after base rel).Normalised := by
  have hn := toInt_nsec_add hb hr
  unfold after
  dsimp only
  split_ifs with hc
  · rw [ge_iff_le, Int64.le_iff_toInt_le, toInt_second, hn] at hc
    show Radix.Digit second (base.nsec + rel.nsec - 1000000000).toInt
    rw [toInt_nsec_carried hb hr hc]
    exact Radix.digit_carry hb hr hc
  · rw [ge_iff_le, Int64.le_iff_toInt_le, toInt_second, hn] at hc
    show Radix.Digit second (base.nsec + rel.nsec).toInt
    rw [hn]
    exact Radix.digit_of_not_carry hb hr hc

/-- The carry adds up, up to wraps. -/
theorem after_modEq (hb : base.Normalised) (hr : rel.Normalised) :
    (after base rel).nanos ≡ base.nanos + rel.nanos [ZMOD wrap] := by
  have hn := toInt_nsec_add hb hr
  have hsum : Radix.value second (base.sec + rel.sec).toInt (base.nsec + rel.nsec).toInt ≡
      base.nanos + rel.nanos [ZMOD wrap] := by
    rw [Int64.toInt_add, hn]
    refine (value_toInt_bmod _ _).trans ?_
    rw [Radix.value_add]
    rfl
  unfold after
  dsimp only
  split_ifs with hc
  · refine Int.ModEq.trans ?_ hsum
    rw [ge_iff_le, Int64.le_iff_toInt_le, toInt_second, hn] at hc
    have hlo : (base.nsec + rel.nsec - 1000000000).toInt = (base.nsec + rel.nsec).toInt - second := by
      rw [toInt_nsec_carried hb hr hc, hn]
    show Radix.value second (base.sec + rel.sec + 1).toInt (base.nsec + rel.nsec - 1000000000).toInt ≡ _
      [ZMOD wrap]
    rw [Int64.toInt_add, hlo]
    refine (value_toInt_bmod _ _).trans ?_
    rw [show (1 : Int64).toInt = 1 from rfl, Radix.value_carry]
  · exact hsum

end After

/-! ### The subtraction -/

section Remaining

variable {timeout now : Timespec}

/-- The difference before the clamp. -/
def difference (timeout now : Timespec) : Timespec :=
  if timeout.nsec - now.nsec < 0 then ⟨timeout.sec - now.sec - 1, timeout.nsec - now.nsec + 1000000000⟩
  else ⟨timeout.sec - now.sec, timeout.nsec - now.nsec⟩

theorem remaining_eq (timeout now : Timespec) :
    remaining timeout now =
      if (difference timeout now).sec < 0 then ⟨0, 0⟩ else difference timeout now := rfl

theorem normalised_difference (ht : timeout.Normalised) (hn : now.Normalised) :
    (difference timeout now).Normalised := by
  have hd := toInt_nsec_sub ht hn
  unfold difference
  split_ifs with hc
  · rw [Int64.lt_iff_toInt_lt, hd] at hc
    show Radix.Digit second (timeout.nsec - now.nsec + 1000000000).toInt
    rw [toInt_nsec_borrowed ht hn hc]
    exact Radix.digit_borrow ht hn hc
  · rw [Int64.lt_iff_toInt_lt, hd] at hc
    show Radix.Digit second (timeout.nsec - now.nsec).toInt
    rw [hd]
    exact Radix.digit_of_not_borrow ht hn hc

/-- The borrow keeps the difference, up to wraps. -/
theorem difference_modEq (ht : timeout.Normalised) (hn : now.Normalised) :
    (difference timeout now).nanos ≡ timeout.nanos - now.nanos [ZMOD wrap] := by
  have hd := toInt_nsec_sub ht hn
  have hsub : Radix.value second (timeout.sec - now.sec).toInt (timeout.nsec - now.nsec).toInt ≡
      timeout.nanos - now.nanos [ZMOD wrap] := by
    rw [Int64.toInt_sub, hd]
    refine (value_toInt_bmod _ _).trans ?_
    rw [Radix.value_sub]
    rfl
  unfold difference
  split_ifs with hc
  · refine Int.ModEq.trans ?_ hsub
    rw [Int64.lt_iff_toInt_lt, hd] at hc
    have hlo : (timeout.nsec - now.nsec + 1000000000).toInt = (timeout.nsec - now.nsec).toInt + second := by
      rw [toInt_nsec_borrowed ht hn hc, hd]
    show Radix.value second (timeout.sec - now.sec - 1).toInt (timeout.nsec - now.nsec + 1000000000).toInt ≡ _
      [ZMOD wrap]
    rw [Int64.toInt_sub, hlo]
    refine (value_toInt_bmod _ _).trans ?_
    rw [show (1 : Int64).toInt = 1 from rfl, Radix.value_borrow]
  · exact hsub

/-- From a time after the epoch the difference does not wrap downwards. -/
theorem neg_lt_sub (ht : timeout.Normalised) (h0 : 0 ≤ timeout.sec) (hn : now.Normalised) :
    -(2 ^ 63 * second) < timeout.nanos - now.nanos := by
  have hnonneg : 0 ≤ timeout.nanos := by
    rw [← not_lt]
    refine fun hneg => absurd ((Radix.value_neg_iff ht).mp hneg) ?_
    exact not_lt.mpr (Int64.le_iff_toInt_le.mp h0)
  linarith [(representable hn).2]

/-- The interval is exact, or it does not fit and the clamp takes it for one that has passed. -/
theorem remaining_cases (ht : timeout.Normalised) (h0 : 0 ≤ timeout.sec) (hn : now.Normalised) :
    (Representable (timeout.nanos - now.nanos) ∧ (remaining timeout now).Normalised ∧
      (remaining timeout now).nanos = max 0 (timeout.nanos - now.nanos)) ∨
    (2 ^ 63 * second ≤ timeout.nanos - now.nanos ∧ remaining timeout now = ⟨0, 0⟩) := by
  have hnorm := normalised_difference ht hn
  have hmod := difference_modEq ht hn
  have hlow := neg_lt_sub ht h0 hn
  have hneg : (difference timeout now).sec < 0 ↔ (difference timeout now).nanos < 0 := by
    rw [Int64.lt_iff_toInt_lt]
    exact (Radix.value_neg_iff hnorm).symm
  rw [remaining_eq]
  by_cases hfits : timeout.nanos - now.nanos < 2 ^ 63 * second
  · left
    have hrep : Representable (timeout.nanos - now.nanos) := ⟨hlow.le, hfits⟩
    rw [(nanos_eq_iff hnorm hmod).mpr hrep] at hneg
    refine ⟨hrep, ?_⟩
    split_ifs with hc
    · rw [max_eq_left (hneg.mp hc).le]
      exact ⟨by decide, by decide⟩
    · rw [max_eq_right (not_lt.mp (hneg.not.mp hc))]
      exact ⟨hnorm, (nanos_eq_iff hnorm hmod).mpr hrep⟩
  · -- one wrap takes it below zero
    right
    have hhigh : timeout.nanos - now.nanos < wrap := by
      linarith [(representable ht).2, (representable hn).1]
    have hmod' : (difference timeout now).nanos ≡ timeout.nanos - now.nanos - wrap [ZMOD wrap] :=
      hmod.trans (Int.modEq_iff_dvd.mpr ⟨-1, by ring⟩)
    have hwrapped := (nanos_eq_iff hnorm hmod').mpr ⟨by linarith, by linarith⟩
    refine ⟨not_lt.mp hfits, if_pos (hneg.mpr ?_)⟩
    rw [hwrapped]
    linarith

end Remaining

/-! ### The conversion -/

variable {t : UmtxTime} {clock : CondClock} {r : Readings}

theorem interval_nonneg (h : t.flags &&& umtxAbstime ≠ 0) : 0 ≤ interval t r := by
  unfold interval
  rw [if_neg h]
  exact le_max_left _ _

theorem relative_cases (h : Proper t clock r) :
    (Representable (interval t r) ∧ (relative t r).Normalised ∧ (relative t r).nanos = interval t r) ∨
    (¬ Representable (interval t r) ∧ 0 < interval t r ∧ relative t r = ⟨0, 0⟩) := by
  unfold interval relative
  by_cases habs : t.flags &&& umtxAbstime = 0
  · rw [if_pos habs, if_pos habs]
    exact Or.inl ⟨representable h.timeout, h.timeout, rfl⟩
  · rw [if_neg habs, if_neg habs]
    rcases remaining_cases h.timeout (h.sec habs) h.now with ⟨hrep, hnorm, hnanos⟩ | ⟨hbig, hzero⟩
    · refine Or.inl ⟨⟨?_, ?_⟩, hnorm, hnanos⟩
      · exact hrep.1.trans (le_max_right _ _)
      · exact max_lt (by norm_num) hrep.2
    · have hpos : 0 < t.timeout.nanos - (callerNow t r).nanos := lt_of_lt_of_le (by norm_num) hbig
      rw [max_eq_right hpos.le]
      exact Or.inr ⟨fun hrep => absurd hrep.2 (not_lt.mpr hbig), hpos, hzero⟩

/-- An exact deadline is a future one. -/
theorem converted_of_nanos (hnorm : (deadline t clock r).Normalised)
    (hnanos : (deadline t clock r).nanos = (r.cond clock).nanos + interval t r) : Converted t clock r := by
  refine ⟨hnorm, hnanos, fun habs _ => ?_⟩
  rw [hnanos]
  linarith [interval_nonneg (r := r) habs]

/-- **Deadlines between clocks.**  The conversion is exact when both the interval and the deadline fit into a
`timespec`, and only then. -/
theorem converted_iff (h : Proper t clock r) :
    Converted t clock r ↔
      Representable (interval t r) ∧ Representable ((r.cond clock).nanos + interval t r) := by
  rcases relative_cases h with ⟨hrep, hnorm, hnanos⟩ | ⟨hbig, hpos, hzero⟩
  · have hmod := after_modEq h.cond hnorm
    have hdnorm : (deadline t clock r).Normalised := normalised_after h.cond hnorm
    rw [hnanos] at hmod
    have hiff := nanos_eq_iff hdnorm hmod
    exact ⟨fun hconv => ⟨hrep, hiff.mp hconv.nanos⟩,
      fun hfits => converted_of_nanos hdnorm (hiff.mpr hfits.2)⟩
  · -- the interval is taken for one that has passed
    refine ⟨fun hconv => absurd hconv.nanos ?_, fun hfits => absurd hfits.1 hbig⟩
    have h0 : Normalised ⟨0, 0⟩ := by decide
    have hmod := after_modEq h.cond h0
    rw [show Timespec.nanos ⟨0, 0⟩ = 0 by decide, add_zero] at hmod
    have hbase : (deadline t clock r).nanos = (r.cond clock).nanos := by
      unfold deadline
      rw [hzero]
      exact (nanos_eq_iff (normalised_after h.cond h0) hmod).mpr (representable h.cond)
    rw [hbase]
    linarith

/-- The uptime and the time of day, and a timeout on the uptime. -/
def readings : Readings := ⟨fun _ => some ⟨5000, 600000000⟩, ⟨5000, 600000000⟩, fun
  | .realtime => ⟨1787000000, 500000000⟩
  | .monotonic => ⟨5000, 700000000⟩⟩

theorem converted_iff_uptime :
    deadline ⟨⟨5000, 750000000⟩, 1, 4⟩ .realtime readings = ⟨1787000000, 650000000⟩ ∧
    Converted ⟨⟨5000, 750000000⟩, 1, 4⟩ .realtime readings := by
  refine ⟨by decide, (converted_iff ⟨by decide, by decide, by decide, by decide⟩).mpr ?_⟩
  exact ⟨by decide, by decide⟩

/-- A timeout that never comes. -/
def never : UmtxTime := ⟨⟨9223372036854775807, 999999999⟩, 1, 4⟩

/-- It is in the far past of the time of day. -/
theorem not_converted_never : Proper never .realtime readings ∧
    (deadline never .realtime readings).sec = -9223372035067780809 ∧
    ¬ Converted never .realtime readings := by
  have hproper : Proper never .realtime readings := ⟨by decide, by decide, by decide, by decide⟩
  refine ⟨hproper, by decide, fun hconv => absurd (hconv.future (by decide) (by decide)) (by decide)⟩

end OrbisCompat.Umtx
