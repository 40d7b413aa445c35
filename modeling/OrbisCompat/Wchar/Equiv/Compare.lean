import OrbisCompat.Wchar.Equiv.Search
import Mathlib.Data.List.Lex

/-!
# The order of wide strings

`wcscmp` compares the terminated strings in lexicographic order, by the elements as `int`s (`wcscmp_key`).  So a string is not
always behind its own beginning, but the order is a total one.
-/

namespace OrbisCompat.Wchar

variable {l r t : List ℕ} {a b n : ℕ}

/-- The elements of a string and the terminator, as `int`s. -/
def key (s : List ℕ) : List ℤ := (s ++ [0]).map Word32.toInt

theorem key_cons (a : ℕ) (s : List ℕ) : key (a :: s) = Word32.toInt a :: key s := rfl

/-- `-1`, `0` or `1`, by the order. -/
def sign (x y : List ℤ) : ℤ := if x < y then -1 else if y < x then 1 else 0

/-- What `wcscmp` compares, without the range of the elements. -/
def Wide (s : List ℕ) : Prop := ∀ c ∈ s, c ≠ 0 ∧ c < 2 ^ 32

theorem WideString.wide (s : WideString) : Wide s.chars := fun c hc => ⟨s.ne_zero c hc, s.lt_two_pow c hc⟩

theorem sign_cons_self (x : ℤ) (u v : List ℤ) : sign (x :: u) (x :: v) = sign u v := by
  unfold sign
  simp only [List.cons_lt_cons_iff, lt_irrefl, true_and, false_or]

theorem sign_cons_of_ne (ha : a < 2 ^ 32) (hb : b < 2 ^ 32) (hne : a ≠ b) (u v : List ℤ) :
    sign (Word32.toInt a :: u) (Word32.toInt b :: v) = wcompare a b := by
  have hab : Word32.toInt a ≠ Word32.toInt b := mt (toInt_inj ha hb).mp hne
  unfold sign wcompare
  simp only [List.cons_lt_cons_iff, hab, hab.symm, false_and, or_false]

theorem wcscmp_key (hl : Wide l) (hr : Wide r) : wcscmp l r = sign (key l) (key r) := by
  induction l generalizing r with
  | nil =>
    cases r with
    | nil => rfl
    | cons b r => exact (sign_cons_of_ne (Nat.two_pow_pos 32) (hr b List.mem_cons_self).2 (hr b List.mem_cons_self).1.symm _ _).symm
  | cons a l ih =>
    have ha := hl a List.mem_cons_self
    cases r with
    | nil => exact (sign_cons_of_ne ha.2 (Nat.two_pow_pos 32) ha.1 _ _).symm
    | cons b r =>
      have hb := hr b List.mem_cons_self
      rw [wcscmp, key_cons, key_cons]
      by_cases hab : a = b
      · rw [if_pos hab, hab, sign_cons_self, ih (fun c hc => hl c (List.mem_cons_of_mem _ hc))
          fun c hc => hr c (List.mem_cons_of_mem _ hc)]
      · rw [if_neg hab, sign_cons_of_ne ha.2 hb.2 hab]

theorem length_key (s : List ℕ) : (key s).length = s.length + 1 := by
  rw [key, List.length_map, List.length_append, List.length_singleton]

theorem key_inj (hl : Wide l) (hr : Wide r) : key l = key r ↔ l = r := by
  refine ⟨fun h => ?_, fun h => h ▸ rfl⟩
  induction l generalizing r with
  | nil =>
    have := congrArg List.length h
    rw [length_key, length_key, List.length_nil] at this
    exact (List.length_eq_zero_iff.mp (by omega)).symm
  | cons a l ih =>
    cases r with
    | nil =>
      have := congrArg List.length h
      rw [length_key, length_key, List.length_nil, List.length_cons] at this
      omega
    | cons b r =>
      rw [key_cons, key_cons] at h
      obtain ⟨hab, htail⟩ := List.cons.inj h
      obtain rfl := (toInt_inj (hl a List.mem_cons_self).2 (hr b List.mem_cons_self).2).mp hab
      rw [ih (fun c hc => hl c (List.mem_cons_of_mem _ hc)) (fun c hc => hr c (List.mem_cons_of_mem _ hc)) htail]

/-! ### The order -/

theorem sign_eq_zero {x y : List ℤ} : sign x y = 0 ↔ x = y := by
  unfold sign
  rcases lt_trichotomy x y with h | rfl | h
  · rw [if_pos h]
    exact iff_of_false (by decide) h.ne
  · rw [if_neg (lt_irrefl x), if_neg (lt_irrefl x)]
    exact iff_of_true rfl rfl
  · rw [if_neg h.asymm, if_pos h]
    exact iff_of_false (by decide) h.ne'

theorem sign_swap (x y : List ℤ) : sign y x = -sign x y := by
  unfold sign
  rcases lt_trichotomy x y with h | rfl | h
  · rw [if_neg h.asymm, if_pos h, if_pos h]
    rfl
  · rw [if_neg (lt_irrefl x), if_neg (lt_irrefl x)]
    rfl
  · rw [if_pos h, if_neg h.asymm, if_pos h]

theorem sign_nonpos {x y : List ℤ} : sign x y ≤ 0 ↔ x ≤ y := by
  unfold sign
  split_ifs with hlt hgt
  · exact iff_of_true (by decide) hlt.le
  · exact iff_of_false (by decide) hgt.not_ge
  · exact iff_of_true le_rfl (not_lt.mp hgt)

/-- A comparison of so many elements is that of what they are the beginning of. -/
theorem wcsncmp_eq (n : ℕ) (l r : List ℕ) : wcsncmp n l r = wcscmp (l.take n) (r.take n) := by
  induction n generalizing l r with
  | zero => rfl
  | succ n ih =>
    cases l with
    | nil => cases r <;> rfl
    | cons a l =>
      cases r with
      | nil => rfl
      | cons b r =>
        rw [wcsncmp, List.take_succ_cons, List.take_succ_cons, wcscmp, ih]

/-! ### Without the case -/

section Case

variable {towlower : ℕ → ℕ} (hlow : ∀ c, towlower c < 2 ^ 32) (hzero : ∀ c, towlower c = towlower 0 ↔ c = 0)

include hlow

theorem toInt32_eq_zero : toInt32 ((towlower a : ℤ) - towlower b) = 0 ↔ towlower a = towlower b := by
  have ha := hlow a
  have hb := hlow b
  unfold toInt32 Word32.toInt
  constructor
  · intro h
    split_ifs at h <;> omega
  · intro h
    rw [h, sub_self]
    rfl

include hzero

theorem wcsncasecmpLoop_eq_zero (n : ℕ) (hl : Wide l) (hr : Wide r) :
    wcsncasecmpLoop towlower n l r = 0 ↔ (l.take (n + 1)).map towlower = (r.take (n + 1)).map towlower := by
  induction n generalizing l r with
  | zero =>
    cases l with
    | nil =>
      cases r with
      | nil => exact iff_of_true ((toInt32_eq_zero hlow).mpr rfl) rfl
      | cons b r =>
        have hb := (hr b List.mem_cons_self).1
        exact iff_of_false (mt (toInt32_eq_zero hlow).mp fun h => hb ((hzero b).mp h.symm)) (by simp)
    | cons a l =>
      cases r with
      | nil =>
        have ha := (hl a List.mem_cons_self).1
        exact iff_of_false (mt (toInt32_eq_zero hlow).mp fun h => ha ((hzero a).mp h)) (by simp)
      | cons b r => exact (toInt32_eq_zero hlow).trans (by simp)
  | succ n ih =>
    cases l with
    | nil =>
      cases r with
      | nil => exact iff_of_true ((toInt32_eq_zero hlow).mpr rfl) rfl
      | cons b r =>
        have hb := (hr b List.mem_cons_self).1
        exact iff_of_false (mt (toInt32_eq_zero hlow).mp fun h => hb ((hzero b).mp h.symm)) (by simp)
    | cons a l =>
      cases r with
      | nil =>
        have ha := (hl a List.mem_cons_self).1
        exact iff_of_false (mt (toInt32_eq_zero hlow).mp fun h => ha ((hzero a).mp h)) (by simp)
      | cons b r =>
        rw [wcsncasecmpLoop, List.take_succ_cons, List.take_succ_cons, List.map_cons, List.map_cons, List.cons.injEq]
        split_ifs with hab
        · have hlow' : towlower a = towlower b := hab.elim (fun h => h ▸ rfl) id
          rw [ih (fun c hc => hl c (List.mem_cons_of_mem _ hc)) fun c hc => hr c (List.mem_cons_of_mem _ hc)]
          exact (and_iff_right hlow').symm
        · exact iff_of_false (mt (toInt32_eq_zero hlow).mp (not_or.mp hab).2) fun h => hab (.inr h.1)

/-- Two strings compare equal without the case when their lower cases agree, as far as they are compared. -/
theorem wcsncasecmp_eq_zero (n : ℕ) (hl : Wide l) (hr : Wide r) :
    wcsncasecmp towlower l r n = 0 ↔ (l.take n).map towlower = (r.take n).map towlower := by
  cases n with
  | zero => exact iff_of_true rfl rfl
  | succ n => exact wcsncasecmpLoop_eq_zero hlow hzero n hl hr

end Case

/-- **The order of wide strings**: `wcscmp` is 0 for equal strings only, changes its sign with its arguments, and is transitive;
`wcsncmp` is `wcscmp` of what the two strings begin with; and the order is lexicographic, the terminator included. -/
theorem wcscmp_order (l r t : WideString) :
    (wcscmp l.chars r.chars = 0 ↔ l.chars = r.chars) ∧ wcscmp r.chars l.chars = -wcscmp l.chars r.chars ∧
      (wcscmp l.chars r.chars ≤ 0 → wcscmp r.chars t.chars ≤ 0 → wcscmp l.chars t.chars ≤ 0) ∧
      (∀ n, wcsncmp n l.chars r.chars = wcscmp (l.chars.take n) (r.chars.take n)) ∧
      (wcscmp l.chars r.chars < 0 ↔ key l.chars < key r.chars) := by
  have hlr := wcscmp_key l.wide r.wide
  have hrl := wcscmp_key r.wide l.wide
  have hrt := wcscmp_key r.wide t.wide
  have hlt := wcscmp_key l.wide t.wide
  refine ⟨?_, ?_, ?_, fun n => wcsncmp_eq n _ _, ?_⟩
  · rw [hlr, sign_eq_zero, key_inj l.wide r.wide]
  · rw [hlr, hrl, sign_swap]
  · rw [hlr, hrt, hlt, sign_nonpos, sign_nonpos, sign_nonpos]
    exact le_trans
  · rw [hlr, ← not_le, ← not_le, ← sign_nonpos, sign_swap]
    omega

end OrbisCompat.Wchar
