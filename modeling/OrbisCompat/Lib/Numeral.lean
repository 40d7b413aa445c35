import Mathlib.Data.Nat.Digits.Defs

/-!
# Numerals

A numeral of the base `b` is the list of its digits, the most significant first.  `places b k v` are the last `k` digits of
`v`, zeros at the front included.  `suppressed b k v` leaves these out, but for the last digit.

A text is a numeral in the characters that `read` reads.  It is a shortest one of its value when no other text with that value
has fewer characters (`IsShortest`).  The digits of `suppressed` make up such a text (`isShortest_suppressed`).
-/

namespace Numeral

variable {b k v : ℕ} {ds : List ℕ}

/-- The value of a list of digits. -/
def value (b : ℕ) (ds : List ℕ) : ℕ := Nat.ofDigits b ds.reverse

theorem value_cons (b d : ℕ) (ds : List ℕ) : value b (d :: ds) = d * b ^ ds.length + value b ds := by
  unfold value
  rw [List.reverse_cons, Nat.ofDigits_append, Nat.ofDigits_singleton, List.length_reverse, Nat.add_comm, Nat.mul_comm]

/-! ### Digits -/

/-- The last `k` digits. -/
def places (b : ℕ) : ℕ → ℕ → List ℕ
  | 0, _ => []
  | k + 1, v => v / b ^ k % b :: places b k v

/-- The digits of at most `k` places, without zeros at the front. -/
def suppressed (b : ℕ) : ℕ → ℕ → List ℕ
  | 0, _ => []
  | k + 1, v => if v / b ^ k % b ≠ 0 ∨ k = 0 then places b (k + 1) v else suppressed b k v

@[simp] theorem length_places (b k v : ℕ) : (places b k v).length = k := by
  induction k with
  | zero => rfl
  | succ k ih => rw [places, List.length_cons, ih]

theorem places_lt (hb : 0 < b) (k v : ℕ) : ∀ d ∈ places b k v, d < b := by
  induction k with
  | zero => simp [places]
  | succ k ih => exact List.forall_mem_cons.mpr ⟨Nat.mod_lt _ hb, ih⟩

theorem value_places (b k v : ℕ) : value b (places b k v) = v % b ^ k := by
  induction k with
  | zero => rw [pow_zero, Nat.mod_one]; rfl
  | succ k ih => rw [places, value_cons, length_places, ih, Nat.mod_pow_succ, Nat.mul_comm, Nat.add_comm]

theorem length_suppressed_le (b k v : ℕ) : (suppressed b k v).length ≤ k := by
  induction k with
  | zero => exact le_rfl
  | succ k ih =>
    rw [suppressed]
    split_ifs
    · exact (length_places b (k + 1) v).le
    · exact ih.trans (Nat.le_succ k)

theorem suppressed_lt (hb : 0 < b) (k v : ℕ) : ∀ d ∈ suppressed b k v, d < b := by
  induction k with
  | zero => simp [suppressed]
  | succ k ih =>
    rw [suppressed]
    split_ifs
    · exact places_lt hb (k + 1) v
    · exact ih

/-- There is a first digit that is kept. -/
theorem suppressed_eq (hv : v < b ^ (k + 1)) : ∃ j, suppressed b (k + 1) v = places b (j + 1) v ∧ v < b ^ (j + 1) ∧
    (b ^ j ≤ v ∨ j = 0) := by
  induction k with
  | zero => exact ⟨0, if_pos (Or.inr rfl), hv, Or.inr rfl⟩
  | succ k ih =>
    by_cases hd : v / b ^ (k + 1) = 0
    · -- a zero at the front
      have hlt : v < b ^ (k + 1) := by
        refine Nat.lt_of_div_eq_zero ?_ hd
        exact Nat.pow_pos (Nat.pos_of_ne_zero fun h => by simp [h] at hv)
      have hnot : ¬(v / b ^ (k + 1) % b ≠ 0 ∨ k + 1 = 0) := by simp [hd]
      obtain ⟨j, hj⟩ := ih hlt
      refine ⟨j, ?_, hj.2⟩
      rw [suppressed, if_neg hnot, hj.1]
    · have hle : b ^ (k + 1) ≤ v := Nat.le_of_not_lt fun h => hd (Nat.div_eq_of_lt h)
      have hlt : v / b ^ (k + 1) < b := Nat.div_lt_of_lt_mul (by rwa [← pow_succ])
      refine ⟨k + 1, if_pos (Or.inl ?_), hv, Or.inl hle⟩
      rwa [Nat.mod_eq_of_lt hlt]

/-! ### Texts -/

section

variable {α : Type*} {read : α → Option ℕ} {write : ℕ → α} {w : List α}

/-- The value of a text; `none` when it is empty, or has a character that is not a digit. -/
def parse (read : α → Option ℕ) (b : ℕ) (w : List α) : Option ℕ :=
  if w.length = 0 then none else (w.mapM read).map (value b)

/-- A text of the value `v`, and there is none with fewer characters. -/
structure IsShortest (read : α → Option ℕ) (b : ℕ) (w : List α) (v : ℕ) : Prop where
  parse_eq : parse read b w = some v
  length_le : ∀ w', parse read b w' = some v → w.length ≤ w'.length

/-- The digits of a text, one for each character. -/
theorem mapM_digits (hread : ∀ c d, read c = some d → d < b) (h : w.mapM read = some ds) :
    ds.length = w.length ∧ ∀ d ∈ ds, d < b := by
  induction w generalizing ds with
  | nil =>
    obtain rfl := Option.some.inj h
    simp
  | cons c w ih =>
    rw [List.mapM_cons, Option.bind_eq_bind, Option.bind_eq_some_iff] at h
    obtain ⟨d, hd, h⟩ := h
    rw [Option.bind_eq_bind, Option.bind_eq_some_iff] at h
    obtain ⟨ds', hds, h⟩ := h
    obtain rfl := Option.some.inj h
    obtain ⟨hlen, hlt⟩ := ih hds
    exact ⟨congrArg (· + 1) hlen, List.forall_mem_cons.mpr ⟨hread c d hd, hlt⟩⟩

/-- What `n` characters can say is less than `b ^ n`. -/
theorem parse_lt (hb : 1 < b) (hread : ∀ c d, read c = some d → d < b) (h : parse read b w = some v) :
    w.length ≠ 0 ∧ v < b ^ w.length := by
  unfold parse at h
  split_ifs at h with hlen
  obtain ⟨ds, hds, rfl⟩ := Option.map_eq_some_iff.mp h
  obtain ⟨hlen', hlt⟩ := mapM_digits hread hds
  have hvalue := Nat.ofDigits_lt_base_pow_length (l := ds.reverse) hb fun d hd => hlt d (List.mem_reverse.mp hd)
  rw [List.length_reverse, hlen'] at hvalue
  exact ⟨hlen, hvalue⟩

theorem parse_map (hwrite : ∀ d < b, read (write d) = some d) (hds : ∀ d ∈ ds, d < b) (hne : ds ≠ []) :
    parse read b (ds.map write) = some (value b ds) := by
  have hmap : (ds.map write).mapM read = some ds := by
    clear hne
    induction ds with
    | nil => rfl
    | cons d ds ih =>
      obtain ⟨hd, hds⟩ := List.forall_mem_cons.mp hds
      rw [List.map_cons, List.mapM_cons, hwrite d hd, ih hds]
      rfl
  have hlen : (ds.map write).length ≠ 0 := by
    rw [List.length_map]
    exact mt List.length_eq_zero_iff.mp hne
  rw [parse, if_neg hlen, hmap, Option.map_some]

/-- **Without zeros at the front** a text is a shortest one. -/
theorem isShortest_suppressed (hb : 1 < b) (hread : ∀ c d, read c = some d → d < b)
    (hwrite : ∀ d < b, read (write d) = some d) (hv : v < b ^ (k + 1)) :
    IsShortest read b ((suppressed b (k + 1) v).map write) v := by
  obtain ⟨j, hj, hlt, hle⟩ := suppressed_eq hv
  have hparse := parse_map hwrite (places_lt (by omega) (j + 1) v) (List.cons_ne_nil _ _)
  rw [value_places, Nat.mod_eq_of_lt hlt] at hparse
  rw [hj]
  refine ⟨hparse, fun w' hw' => ?_⟩
  rw [List.length_map, length_places]
  obtain ⟨hlen, hlt'⟩ := parse_lt hb hread hw'
  rcases hle with hle | rfl
  · exact (Nat.pow_lt_pow_iff_right hb).mp (hle.trans_lt hlt')
  · exact Nat.one_le_iff_ne_zero.mpr hlen

end

end Numeral
