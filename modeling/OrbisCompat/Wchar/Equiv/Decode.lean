import OrbisCompat.Wchar.Equiv.Utf8
import OrbisCompat.Wchar.Produced

/-!
# `%s` decodes strict UTF-8

`mbtowc` walks through the same table as `mbsrtowcs`, with the tests in another order, and reads the same characters
(`mbtowc_round`).  So `%s` produces the characters of a well-formed string (`decode_text`), and fails on any other
string that its precision does not cut off (`decode_malformed`).
-/

namespace OrbisCompat.Wchar

open Utf8

variable {s : List ℕ}

/-- `mbtowc` answers what a round of `mbsrtowcs` does with the same string. -/
structure Agrees (s : List ℕ) (r : Option (ℕ × ℕ)) (round : Round) : Prop where
  char : ∀ c rest, round = .char c rest → ∃ i, 0 < i ∧ r = some (i, c) ∧ s.drop i = rest
  stop : ∀ c s', round = .stop c s' → ¬(c = 0 ∧ s'.headD 0 = 0) → r = none

theorem Agrees.of_char {c i : ℕ} {rest : List ℕ} (hi : 0 < i) (hdrop : s.drop i = rest) :
    Agrees s (some (i, c)) (.char c rest) where
  char c' rest' h := by
    cases h
    exact ⟨i, hi, rfl, hdrop⟩
  stop c' s' h := by cases h

theorem Agrees.of_stop {c : ℕ} {s' : List ℕ} : Agrees s none (.stop c s') where
  char c' rest h := by cases h
  stop _ _ _ _ := rfl

theorem mbtowc_round (hs : IsBytes s) : Agrees s (mbtowc s W32_MB_LEN_MAX) (storeRound s) := by
  have hb := hs.headD_lt
  unfold storeRound mbtowc W32_MB_LEN_MAX
  rw [if_neg (by decide : ¬(4 : ℕ) = 0)]
  by_cases hzero : s.headD 0 = 0
  · -- both stop at the terminator, and not for a reason to fail
    have hascii : ¬Word32.sub (s.headD 0) 1 < 0x7f := fun h => absurd ((test_ascii hb).mp h).1 (by omega)
    have hlead : Word32.sub (s.headD 0) SA > SB - SA := (test_lead hb).mpr (by omega)
    have hlow : s.headD 0 < 0x80 := by omega
    rw [if_pos hlow, if_neg hascii, if_pos hlead]
    constructor
    · simp
    · rintro c s' h hne
      cases h
      exact absurd ⟨rfl, hzero⟩ hne
  by_cases hascii : s.headD 0 < 0x80
  · rw [if_pos ((test_ascii hb).mpr ⟨Nat.pos_of_ne_zero hzero, hascii⟩), if_pos hascii, if_pos hzero]
    exact .of_char one_pos List.drop_one
  rw [if_neg (fun h => hascii ((test_ascii hb).mp h).2), if_neg hascii]
  by_cases hlead : Word32.sub (s.headD 0) SA > SB - SA
  · rw [if_pos hlead, if_pos hlead]
    exact .of_stop
  rw [if_neg hlead, if_neg hlead]
  dsimp only
  rw [if_neg (fun h => absurd h.1 (lt_irrefl 4))]
  by_cases hoob : OOB (bittab.getD (s.headD 0 - SA) 0) (s.tail.headD 0) ≠ 0
  · rw [if_pos hoob, if_pos hoob]
    exact .of_stop
  rw [if_neg hoob, if_neg hoob]
  -- the high bit says whether another byte belongs to the character
  generalize Word32.shl (bittab.getD (s.headD 0 - SA) 0) 6 ||| Word32.sub (s.tail.headD 0) 0x80 = c₂
  by_cases htwo : c₂ &&& 2 ^ 31 = 0
  · rw [if_neg (not_not.mpr htwo), if_pos htwo]
    exact .of_char two_pos (by simp only [← List.drop_one, List.drop_drop])
  rw [if_pos htwo, if_neg htwo]
  by_cases htrail₂ : Word32.sub (s.tail.tail.headD 0) 0x80 ≥ 0x40
  · rw [if_pos htrail₂, if_pos htrail₂]
    exact .of_stop
  rw [if_neg htrail₂, if_neg htrail₂]
  generalize Word32.shl c₂ 6 ||| Word32.sub (s.tail.tail.headD 0) 0x80 = c₃
  by_cases hthree : c₃ &&& 2 ^ 31 = 0
  · rw [if_neg (not_not.mpr hthree), if_pos hthree]
    exact .of_char three_pos (by simp only [← List.drop_one, List.drop_drop])
  rw [if_pos hthree, if_neg hthree]
  by_cases htrail₃ : Word32.sub (s.tail.tail.tail.headD 0) 0x80 ≥ 0x40
  · rw [if_pos htrail₃, if_pos htrail₃]
    exact .of_stop
  rw [if_neg htrail₃, if_neg htrail₃]
  exact .of_char four_pos (by simp only [← List.drop_one, List.drop_drop])

/-- **A text** decodes to its characters. -/
theorem decode_text {cs : List ℕ} (h : IsText cs) (k : ℕ) :
    decode k (cs.flatMap encode) = some (cs.take k, (cs.drop k).flatMap encode) := by
  induction k generalizing cs with
  | zero => rfl
  | succ k ih =>
    cases cs with
    | nil => rfl
    | cons c cs =>
      obtain ⟨⟨hc, hscalar⟩, hcs⟩ := h.of_cons
      have hstore : storeRound ((c :: cs).flatMap encode) = .char c (cs.flatMap encode) := by
        rw [List.flatMap_cons]
        exact (accepts_encoded (.of_scalar hscalar) hc).store
      obtain ⟨i, hi, hmb, hdrop⟩ := (mbtowc_round h.isBytes).char _ _ hstore
      unfold decode
      rw [hmb]
      dsimp only
      rw [if_pos hi, hdrop, ih hcs]
      rfl

/-- **A malformed string** does not decode. -/
theorem decode_malformed {k : ℕ} (hs : IsBytes s) (h : ¬WellFormed s) (hk : s.length ≤ k) : decode k s = none := by
  induction k generalizing s with
  | zero =>
    rw [List.length_eq_zero_iff.mp (Nat.le_zero.mp hk)] at h
    exact absurd .nil h
  | succ k ih =>
    have hround := mbtowc_round hs
    unfold decode
    rcases round_malformed hs h with ⟨⟨c, hstop, hne⟩, -⟩ | ⟨c, rest, ⟨hstore, -⟩, hbytes, hrest, hlt⟩
    · rw [hround.stop _ _ hstop hne]
    · obtain ⟨i, hi, hmb, hdrop⟩ := hround.char _ _ hstore
      rw [hmb]
      dsimp only
      rw [if_pos hi, hdrop, ih hbytes hrest (by omega)]
      rfl

end OrbisCompat.Wchar
