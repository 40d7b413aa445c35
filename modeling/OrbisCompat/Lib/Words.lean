import Mathlib.Order.Defs.Unbundled
import Mathlib.Tactic.Ring
import Mathlib.Tactic.Linarith

/-!
# Words: periods, greatest suffixes, critical positions

A word is a function on `ℕ` of which the first `l` values count.

* `HasPeriod x a b p`: the letters from `a` up to `b` repeat at the distance `p`.
* `Repeats x l c r`: a square of half-length `r` is centred at `c`, as far as the word reaches.
* `Precedes lt x l s i`: the suffix at `s` has the smaller letter where it first differs from the suffix at `i`.
* `Greatest lt x l i`: the suffix at `i` is the greatest one.

Of the two greatest suffixes, for an order and for its converse, the shorter one starts at a critical position: every
repetition centred there is a period of the whole word (`Greatest.hasPeriod_of_repeats`).

`Scan` is the invariant of the scan that finds the greatest suffix and its least period in one pass.
-/

namespace Words

variable {α : Type*}

/-- The letters of `x` from `a` up to `b` repeat at the distance `p`. -/
def HasPeriod (x : ℕ → α) (a b p : ℕ) : Prop := ∀ t, a ≤ t → t + p < b → x t = x (t + p)

/-- What stands in front of `c` repeats at the distance `r`, where that is behind `c` and in the word. -/
def Repeats (x : ℕ → α) (l c r : ℕ) : Prop := ∀ t < c, c ≤ t + r → t + r < l → x t = x (t + r)

/-- The suffix at `s` is smaller than the suffix at `i`, and not because it is shorter. -/
def Precedes (lt : α → α → Prop) (x : ℕ → α) (l s i : ℕ) : Prop :=
  ∃ e, (∀ t < e, x (s + t) = x (i + t)) ∧ s + e < l ∧ i + e < l ∧ lt (x (s + e)) (x (i + e))

/-- The suffix at `i` is the greatest one. -/
structure Greatest (lt : α → α → Prop) (x : ℕ → α) (l i : ℕ) : Prop where
  precedes : ∀ s < i, Precedes lt x l s i
  precedes_or_border : ∀ s, i < s → s < l → Precedes lt x l s i ∨ ∀ t, s + t < l → x (s + t) = x (i + t)

variable {lt : α → α → Prop} {x : ℕ → α} {a b c i j k l m p r s : ℕ}

/-! ### Periods -/

theorem HasPeriod.add_mul (h : HasPeriod x a b p) {t : ℕ} (ht : a ≤ t) (c : ℕ) (hb : t + c * p < b) : x t = x (t + c * p) := by
  induction c with
  | zero => rw [Nat.zero_mul, Nat.add_zero]
  | succ c ih =>
    rw [Nat.succ_mul] at hb ⊢
    rw [ih (by omega), ← Nat.add_assoc]
    exact h _ (by omega) (by omega)

theorem HasPeriod.mono (h : HasPeriod x a b p) {a' b' : ℕ} (ha : a ≤ a') (hb : b' ≤ b) : HasPeriod x a' b' p :=
  fun t ht htb => h t (by omega) (by omega)

theorem HasPeriod.repeats (h : HasPeriod x 0 l p) (c : ℕ) : Repeats x l c p := fun t _ _ ht => h t (Nat.zero_le t) ht

/-- The letter at an offset is the letter at what the offset leaves on division by the period. -/
theorem HasPeriod.eq_mod (h : HasPeriod x a b p) {s t : ℕ} (hb : a + s + t < b) : x (a + s + t) = x (a + s % p + t) := by
  have hs := Nat.mod_add_div' s p
  have := h.add_mul (t := a + s % p + t) (by omega) (s / p) (by omega)
  rw [this]
  congr 1
  omega

/-! ### The order of suffixes -/

section Order

variable [IsStrictOrder α lt]

theorem Precedes.trans (h : Precedes lt x l s i) (h' : Precedes lt x l i j) : Precedes lt x l s j := by
  obtain ⟨e, heq, hs, hi, hlt⟩ := h
  obtain ⟨e', heq', hi', hj', hlt'⟩ := h'
  rcases Nat.lt_trichotomy e e' with hee | rfl | hee
  · exact ⟨e, fun t ht => (heq t ht).trans (heq' t (by omega)), hs, by omega, heq' e hee ▸ hlt⟩
  · exact ⟨e, fun t ht => (heq t ht).trans (heq' t ht), hs, hj', trans_of lt hlt hlt'⟩
  · exact ⟨e', fun t ht => (heq t (by omega)).trans (heq' t ht), by omega, hj', heq e' hee ▸ hlt'⟩

/-- A repetition at the front of the greatest suffix does not fit in front of it. -/
theorem Greatest.lt_of_repeats (h : Greatest lt x l i) (hr : 0 < r) (hrep : Repeats x l i r) : i < r := by
  by_contra hle
  obtain ⟨e, heq, -, hie, hlt⟩ := h.precedes (i - r) (by omega)
  -- up to `r` the two suffixes are the halves of the square, so they differ behind it
  have her : r ≤ e := by
    by_contra her
    have := hrep (i - r + e) (by omega) (by omega) (by omega)
    rw [this, show i - r + e + r = i + e by omega] at hlt
    exact irrefl_of lt _ hlt
  obtain ⟨e, rfl⟩ := Nat.exists_eq_add_of_le her
  have heq' : ∀ t < e, x (i + t) = x (i + r + t) := by
    intro t ht
    have := heq (r + t) (by omega)
    rwa [show i - r + (r + t) = i + t by omega, ← Nat.add_assoc] at this
  rw [show i - r + (r + e) = i + e by omega, ← Nat.add_assoc] at hlt
  rw [← Nat.add_assoc] at hie
  rcases h.precedes_or_border (i + r) (by omega) (by omega) with ⟨e', hpre, h1, h2, hlt'⟩ | hborder
  · rcases Nat.lt_trichotomy e e' with hee | rfl | hee
    · exact irrefl_of lt _ (hpre e hee ▸ hlt)
    · exact irrefl_of lt _ (trans_of lt hlt hlt')
    · exact irrefl_of lt _ (heq' e' hee ▸ hlt')
  · exact irrefl_of lt _ (hborder e hie ▸ hlt)

/-- **The critical position**: every repetition centred at the later of the two greatest suffixes is a period of the word. -/
theorem Greatest.hasPeriod_of_repeats (h : Greatest lt x l i) (h' : Greatest (fun a b => lt b a) x l j) (hji : j ≤ i)
    (hr : 0 < r) (hrep : Repeats x l i r) : HasPeriod x 0 l r := by
  have hir := h.lt_of_repeats hr hrep
  -- what is left to see is that the suffix behind the repetition is a border of the greatest one
  have hborder : i + r < l → ∀ t, i + r + t < l → x (i + r + t) = x (i + t) := by
    intro hirl
    rcases h.precedes_or_border (i + r) (by omega) hirl with ⟨e, hpre, he, he', hlt⟩ | hb
    · intro t ht
      exfalso
      rcases h'.precedes_or_border (j + r) (by omega) (by omega) with ⟨f, hpre', hf, hf', hgt⟩ | hb'
      · -- up to `i` the suffix at `j` is what the repetition says
        have hfi : i - j ≤ f := by
          by_contra hlt'
          have := hrep (j + f) (by omega) (by omega) (by omega)
          rw [this, show j + f + r = j + r + f by omega] at hgt
          exact irrefl_of lt _ hgt
        obtain ⟨f, rfl⟩ := Nat.exists_eq_add_of_le hfi
        rw [show j + r + (i - j + f) = i + r + f by omega, show j + (i - j + f) = i + f by omega] at hgt
        rcases Nat.lt_trichotomy e f with hef | rfl | hef
        · have := hpre' (i - j + e) (by omega)
          rw [show j + r + (i - j + e) = i + r + e by omega, show j + (i - j + e) = i + e by omega] at this
          exact irrefl_of lt _ (this ▸ hlt)
        · exact irrefl_of lt _ (trans_of lt hlt hgt)
        · exact irrefl_of lt _ (hpre f hef ▸ hgt)
      · have := hb' (i - j + e) (by omega)
        rw [show j + r + (i - j + e) = i + r + e by omega, show j + (i - j + e) = i + e by omega] at this
        exact irrefl_of lt _ (this ▸ hlt)
    · exact hb
  intro t _ ht
  by_cases hti : t < i
  · exact hrep t hti (by omega) ht
  · have := hborder (by omega) (t - i) (by omega)
    rw [show i + r + (t - i) = t + r by omega, show i + (t - i) = t by omega] at this
    exact this.symm

end Order

/-! ### The scan for the greatest suffix -/

/-- The state of the scan: the suffix at `i` is the best so far, with the period `p` up to `j + k`, and `k` letters of the
candidate at `j` have been compared. -/
structure Scan (lt : α → α → Prop) (x : ℕ → α) (l i j k p : ℕ) : Prop where
  k_lt : k < p
  le : j + k ≤ l
  period : HasPeriod x i (j + k) p
  precedes : ∀ s < i, Precedes lt x l s i
  /-- The candidate is a number of periods away. -/
  whole : ∃ m, 0 < m ∧ j = i + m * p
  /-- No rotation of the period comes up to it. -/
  rotation : ∀ s, 0 < s → s < p → Precedes lt x (i + p) (i + s) i

namespace Scan

theorem start (hl : 0 < l) : Scan lt x l 0 1 0 1 where
  k_lt := Nat.one_pos
  le := by omega
  period t _ ht := by omega
  precedes s hs := absurd hs (Nat.not_lt_zero s)
  whole := ⟨1, Nat.one_pos, rfl⟩
  rotation s h0 h1 := by omega

variable (h : Scan lt x l i j k p)

include h

theorem lt_candidate : i + p ≤ j := by
  obtain ⟨m, hm, rfl⟩ := h.whole
  have := Nat.le_mul_of_pos_left p hm
  omega

/-- The letter that the next one is compared with is the one a period in front of it. -/
theorem compared : x (i + k) = x (j + k - p) := by
  obtain ⟨m, hm, rfl⟩ := h.whole
  obtain ⟨m, rfl⟩ : ∃ c, m = c + 1 := ⟨m - 1, by omega⟩
  have hk := h.k_lt
  have hsucc : (m + 1) * p = m * p + p := Nat.succ_mul m p
  rw [h.period.add_mul (t := i + k) (by omega) m (by omega)]
  congr 1
  omega

private theorem period_succ (heq : x (i + k) = x (j + k)) : HasPeriod x i (j + k + 1) p := by
  intro t hit ht
  by_cases hlt : t + p < j + k
  · exact h.period t hit hlt
  · have := h.lt_candidate
    rw [show t + p = j + k by omega, ← heq, h.compared]
    congr 1
    omega

theorem equal (hl : j + k < l) (heq : x (i + k) = x (j + k)) (hk : k + 1 < p) : Scan lt x l i j (k + 1) p :=
  { h with k_lt := hk, le := by omega, period := period_succ h heq }

theorem equal_whole (hl : j + k < l) (heq : x (i + k) = x (j + k)) (hk : k + 1 = p) : Scan lt x l i (j + p) 0 p where
  k_lt := by omega
  le := by omega
  period := (period_succ h heq).mono le_rfl (by omega)
  precedes := h.precedes
  whole := by
    obtain ⟨m, hm, rfl⟩ := h.whole
    exact ⟨m + 1, by omega, by rw [Nat.succ_mul]; omega⟩
  rotation := h.rotation

variable [IsStrictOrder α lt]

/-- The candidate is smaller: all that was scanned is one period. -/
theorem smaller (hl : j + k < l) (hlt : lt (x (j + k)) (x (i + k))) : Scan lt x l i (j + (k + 1)) 0 (j + (k + 1) - i) where
  k_lt := by have := h.lt_candidate; omega
  le := by omega
  period t hit ht := by omega
  precedes := h.precedes
  whole := ⟨1, Nat.one_pos, by have := h.lt_candidate; omega⟩
  rotation := by
    obtain ⟨m, hm, hj⟩ := h.whole
    have hk := h.k_lt
    have hij := h.lt_candidate
    intro s hs hsp
    have hdiv := Nat.mod_add_div' s p
    have hdm : s / p ≤ m := by
      by_contra hgt
      have := Nat.mul_le_mul_right p (Nat.not_le.mp hgt)
      rw [Nat.succ_mul] at this
      omega
    have hmul := Nat.mul_le_mul_right p hdm
    -- in front of the new letter the suffix at `s` is the rotation by what `s` leaves
    have hrot : ∀ t, s + t < j + k - i → x (i + s + t) = x (i + s % p + t) := fun t ht => h.period.eq_mod (by omega)
    rcases Nat.eq_zero_or_pos (s % p) with h0 | hpos
    · refine ⟨j + k - i - s, fun t ht => ?_, by omega, by omega, ?_⟩
      · rw [hrot t (by omega), h0, Nat.add_zero]
      · have : x (i + (j + k - i - s)) = x (i + k) := by
          have hmod := h.period.eq_mod (s := (m - s / p) * p) (t := k) (by rw [Nat.sub_mul]; omega)
          rw [Nat.mul_mod_left, Nat.add_zero] at hmod
          rw [← hmod]
          congr 1
          rw [Nat.sub_mul]
          omega
        rwa [this, show i + s + (j + k - i - s) = j + k by omega]
    · obtain ⟨e, heq, he, -, hlte⟩ := h.rotation (s % p) hpos (Nat.mod_lt _ (by omega))
      by_cases hse : s + e < j + k - i
      · exact ⟨e, fun t ht => (hrot t (by omega)).trans (heq t ht), by omega, by omega, by rwa [hrot e hse]⟩
      · -- the rotation would differ behind the new letter
        refine ⟨j + k - i - s, fun t ht => (hrot t (by omega)).trans (heq t (by omega)), by omega, by omega, ?_⟩
        have hlast : s / p = m := by
          by_contra hne
          have := Nat.mul_le_mul_right p (show s / p + 1 ≤ m by omega)
          rw [Nat.succ_mul] at this
          omega
        rw [hlast] at hdiv
        rw [show i + s + (j + k - i - s) = j + k by omega]
        rw [show i + k = i + s % p + (j + k - i - s) by omega] at hlt
        rcases Nat.lt_or_eq_of_le (show j + k - i - s ≤ e by omega) with hee | hee
        · exact heq _ hee ▸ hlt
        · exact trans_of lt hlt (hee ▸ hlte)

/-- The candidate is greater: it is the best so far. -/
theorem greater (hl : j + k < l) (hlt : lt (x (i + k)) (x (j + k))) : Scan lt x l j (j + 1) 0 1 where
  k_lt := Nat.one_pos
  le := by omega
  period t hjt ht := by omega
  whole := ⟨1, Nat.one_pos, by omega⟩
  rotation s h0 h1 := by omega
  precedes := by
    obtain ⟨m, hm, hj⟩ := h.whole
    have hk := h.k_lt
    have hij := h.lt_candidate
    have hrot : ∀ s t, i ≤ s → s + t < j + k → x (s + t) = x (i + (s - i) % p + t) := by
      intro s t his hst
      rw [← h.period.eq_mod (by omega)]
      congr 1
      omega
    have hagree : ∀ t < k, x (i + t) = x (j + t) := by
      intro t ht
      have := hrot j t (by omega) (by omega)
      rw [show (j - i) % p = 0 by rw [show j - i = m * p by omega, Nat.mul_mod_left], Nat.add_zero] at this
      exact this.symm
    have hcand : Precedes lt x l i j := ⟨k, hagree, by omega, hl, hlt⟩
    intro s hsj
    rcases Nat.lt_or_ge s i with hsi | hsi
    · exact (h.precedes s hsi).trans hcand
    · have hdiv := Nat.mod_add_div' (s - i) p
      have hdm : (s - i) / p + 1 ≤ m := by
        by_contra hgt
        have := Nat.mul_le_mul_right p (show m ≤ (s - i) / p by omega)
        omega
      have hmul := Nat.mul_le_mul_right p hdm
      rw [Nat.succ_mul] at hmul
      rcases Nat.eq_zero_or_pos ((s - i) % p) with h0 | hpos
      · refine ⟨k, fun t ht => ?_, by omega, hl, ?_⟩
        · rw [hrot s t hsi (by omega), h0, Nat.add_zero, hagree t ht]
        · rw [hrot s k hsi (by omega), h0, Nat.add_zero]
          exact hlt
      · obtain ⟨e, heq, he, he', hlte⟩ := h.rotation ((s - i) % p) hpos (Nat.mod_lt _ (by omega))
        have hsi' : Precedes lt x l s i :=
          ⟨e, fun t ht => (hrot s t hsi (by omega)).trans (heq t ht), by omega, by omega,
            by rwa [hrot s e hsi (by omega)]⟩
        exact hsi'.trans hcand

end Scan

/-! ### The end of the scan -/

namespace Scan

variable (h : Scan lt x l i j k p) (hend : l ≤ j + k)

include h hend

theorem hasPeriod : HasPeriod x i l p := h.period.mono le_rfl hend

theorem greatest : Greatest lt x l i where
  precedes := h.precedes
  precedes_or_border s his hsl := by
    have hrot : ∀ t, s + t < l → x (s + t) = x (i + (s - i) % p + t) := by
      intro t ht
      rw [← (h.hasPeriod hend).eq_mod (by omega)]
      congr 1
      omega
    rcases Nat.eq_zero_or_pos ((s - i) % p) with h0 | hpos
    · right
      intro t ht
      rw [hrot t ht, h0, Nat.add_zero]
    · have hk := h.k_lt
      have hij := h.lt_candidate
      have hle := h.le
      obtain ⟨e, heq, he, -, hlt⟩ := h.rotation ((s - i) % p) hpos (Nat.mod_lt _ (by omega))
      rcases Nat.lt_or_ge (s + e) l with hse | hse
      · exact .inl ⟨e, fun t ht => (hrot t (by omega)).trans (heq t ht), hse, by omega, by rwa [hrot e hse]⟩
      · exact .inr fun t ht => (hrot t ht).trans (heq t (by omega))

/-- The period is the least one of the greatest suffix. -/
theorem le_of_hasPeriod [IsStrictOrder α lt] (hr : 0 < r) (hper : HasPeriod x i l r) : p ≤ r := by
  by_contra hlt
  obtain ⟨e, -, he, -, hlte⟩ := h.rotation r hr (Nat.not_le.mp hlt)
  have hij := h.lt_candidate
  have hle := h.le
  rw [hper (i + e) (by omega) (by omega), Nat.add_right_comm] at hlte
  exact irrefl_of lt _ hlte

end Scan

/-! ### Critical factorizations -/

/-- The word is cut at the critical position `c`, and `p` is the least period of what is behind it. -/
structure Factorization (x : ℕ → α) (l c p : ℕ) : Prop where
  pos : 0 < p
  fits : c + p ≤ l
  critical : ∀ r, 0 < r → Repeats x l c r → c < r ∧ HasPeriod x 0 l r
  hasPeriod : HasPeriod x c l p
  least : ∀ r, 0 < r → HasPeriod x c l r → p ≤ r

/-- The scans for an order and for its converse cut the word, at the later of the two suffixes. -/
theorem Scan.factorization [IsStrictOrder α lt] {i' j' k' p' : ℕ} (h : Scan lt x l i j k p) (hend : l ≤ j + k)
    (h' : Scan (fun a b => lt b a) x l i' j' k' p') (hend' : l ≤ j' + k') (hle : i' ≤ i) : Factorization x l i p where
  pos := Nat.lt_of_le_of_lt (Nat.zero_le k) h.k_lt
  fits := by
    have hij := h.lt_candidate
    have hjl := h.le
    omega
  critical r hr hrep := by
    have hg := h.greatest hend
    exact ⟨hg.lt_of_repeats hr hrep, hg.hasPeriod_of_repeats (h'.greatest hend') hle hr hrep⟩
  hasPeriod := h.hasPeriod hend
  least r hr hper := h.le_of_hasPeriod hend hr hper

namespace Factorization

variable (F : Factorization x l c p)

include F

/-- A period that fits behind the critical position leaves no other choice than the least period of what is behind it. -/
theorem hasPeriod_of_le (hr : 0 < r) (hrx : HasPeriod x 0 l r) (hrl : c + r ≤ l) : HasPeriod x 0 l p := by
  have hcr : c < r := (F.critical r hr (hrx.repeats c)).1
  -- a square of half-length `q` is centred at `c` when `q` and `r` differ by a number of periods
  have hsquare : ∀ q n, r = q + n * p → Repeats x l c q := by
    intro q n hq t htc hcq htl
    rw [hrx t (Nat.zero_le t) (by omega), F.hasPeriod.add_mul hcq n (by omega)]
    congr 1
    omega
  have hdiv := Nat.mod_add_div' r p
  rcases Nat.eq_zero_or_pos (r % p) with h0 | hpos
  · have hdp : 0 < r / p := by
      by_contra hn
      rw [Nat.eq_zero_of_not_pos hn] at hdiv
      omega
    refine (F.critical p F.pos (hsquare p (r / p - 1) ?_)).2
    rw [Nat.sub_mul, Nat.one_mul]
    have := Nat.le_mul_of_pos_left p hdp
    omega
  · have hmod := (F.critical (r % p) hpos (hsquare _ (r / p) hdiv.symm)).2
    have := F.least _ hpos (hmod.mono (Nat.zero_le c) le_rfl)
    have := Nat.mod_lt r F.pos
    omega

/-- What is in front of the critical position stands a period further on: the word has the period of what is behind it. -/
theorem periodic (heq : ∀ t < c, x t = x (p + t)) : c < p ∧ HasPeriod x 0 l p :=
  F.critical p F.pos fun t htc _ _ => by rw [heq t htc, Nat.add_comm]

theorem le_of_periodic (hr : 0 < r) (hrx : HasPeriod x 0 l r) : p ≤ r := F.least r hr (hrx.mono (Nat.zero_le c) le_rfl)

/-- Otherwise the periods of the word are longer than either of its parts. -/
theorem lt_of_not_periodic (hne : ∃ t < c, x t ≠ x (p + t)) (hr : 0 < r) (hrx : HasPeriod x 0 l r) : c < r ∧ l - c < r := by
  refine ⟨(F.critical r hr (hrx.repeats c)).1, ?_⟩
  by_contra hle
  obtain ⟨t, htc, hxt⟩ := hne
  have hfits := F.fits
  have := F.hasPeriod_of_le hr hrx (by omega) t (Nat.zero_le t) (by omega)
  rw [Nat.add_comm] at this
  exact hxt this

end Factorization

/-! ### Occurrences -/

/-- The word of length `l` stands in `y` at `a`. -/
def OccursAt (x : ℕ → α) (l : ℕ) (y : ℕ → α) (a : ℕ) : Prop := ∀ t < l, y (a + t) = x t

section Shift

variable {y : ℕ → α} {h : ℕ} (F : Factorization x l c p)

include F

/-- The letters behind the critical position agree up to `k`, and differ there: the word does not stand less than
`k - c + 1` further on. -/
theorem not_occursAt_of_behind (hkl : k < l) (heq : ∀ t, c ≤ t → t < k → y (h + t) = x t) (hne : y (h + k) ≠ x k) (hs : s ≤ k - c)
    (hck : c ≤ k) : ¬ OccursAt x l y (h + s) := by
  intro hocc
  rcases Nat.eq_zero_or_pos s with rfl | hpos
  · exact hne (hocc k hkl)
  · have hrep : Repeats x l c s := by
      intro t htc hcts htl
      rw [← hocc t (by omega), ← heq (t + s) hcts (by omega)]
      congr 1
      omega
    have hper := (F.critical s hpos hrep).2 (k - s) (Nat.zero_le _) (by omega)
    rw [Nat.sub_add_cancel (by omega), ← hocc (k - s) (by omega)] at hper
    apply hne
    rw [← hper]
    congr 1
    omega

/-- All letters behind the critical position agree: where the word stands next, it does so at one of its periods. -/
theorem hasPeriod_of_occursAt (heq : ∀ t, c ≤ t → t < l → y (h + t) = x t) (hpos : 0 < s) (hocc : OccursAt x l y (h + s)) :
    HasPeriod x 0 l s := by
  refine (F.critical s hpos fun t htc hcts htl => ?_).2
  rw [← hocc t (by omega), ← heq (t + s) hcts htl]
  congr 1
  omega

end Shift

end Words
