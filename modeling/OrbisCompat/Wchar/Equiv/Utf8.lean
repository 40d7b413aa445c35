import OrbisCompat.Lib.Utf8
import OrbisCompat.Wchar.Multibyte

/-!
# The conversions are UTF-8, strictly

The offset in the top bits of an entry of `bittab` lets through the second bytes of the table of well-formed
sequences and no others (`oob_entry`), and the marks count the bytes behind it.  So one time round the loop reads
exactly one encoded scalar value, or stops (`accepts_encoded`, `round_cases`).
-/

namespace OrbisCompat.Wchar

open Utf8

/-- The bytes of a NUL-terminated string before the terminator. -/
def IsBytes (s : List ℕ) : Prop := ∀ b ∈ s, 0 < b ∧ b < 256

/-- The wide characters of a NUL-terminated string of scalar values. -/
def IsText (cs : List ℕ) : Prop := ∀ c ∈ cs, c ≠ 0 ∧ IsScalar c

/-! ### The table -/

/-- `OOB` looks at the high five bits of the byte. -/
theorem oob_eighth : ∀ i < 51, ∀ q < 32,
    OOB (bittab.getD i 0) (8 * q) = 0 ↔ Second (0xC2 + i) (8 * q) := by decide +kernel

/-- **`OOB`** lets through the second bytes that may follow the lead byte. -/
theorem oob_entry (i : ℕ) (hi : i < 51) (b : ℕ) (hb : b < 256) :
    OOB (bittab.getD i 0) b = 0 ↔ Second (0xC2 + i) b := by
  have hshift : b >>> 3 = (8 * (b / 8)) >>> 3 := by
    rw [Nat.shiftRight_eq_div_pow, Nat.shiftRight_eq_div_pow]
    omega
  have hoob : OOB (bittab.getD i 0) b = OOB (bittab.getD i 0) (8 * (b / 8)) := by
    unfold OOB
    rw [← hshift]
  -- the bounds of the table are multiples of eight
  have hsecond : Second (0xC2 + i) (8 * (b / 8)) ↔ Second (0xC2 + i) b := by
    unfold Second
    split_ifs <;> omega
  rw [hoob, oob_eighth i hi (b / 8) (by omega), hsecond]

theorem entry_ne_zero : ∀ i < 51, bittab.getD i 0 ≠ 0 := by decide +kernel

theorem entry_two : ∀ x < 30, Word32.shl (bittab.getD x 0) 6 = (x + 2) * 64 ∧
    bittab.getD x 0 &&& 2 ^ 25 = 0 := by decide +kernel

theorem entry_three : ∀ x < 16, Word32.shl (bittab.getD (30 + x) 0) 6 = 0xC0000000 + x * 64 ∧
    bittab.getD (30 + x) 0 &&& 2 ^ 25 ≠ 0 ∧ bittab.getD (30 + x) 0 &&& 2 ^ 19 = 0 := by decide +kernel

theorem entry_four : ∀ x < 5, Word32.shl (bittab.getD (46 + x) 0) 6 = 0xC3000000 + x * 64 ∧
    bittab.getD (46 + x) 0 &&& 2 ^ 25 ≠ 0 ∧ bittab.getD (46 + x) 0 &&& 2 ^ 19 ≠ 0 := by decide +kernel

/-! ### The tests -/

variable {b b₁ b₂ b₃ c : ℕ} {s rest : List ℕ}

theorem test_ascii (hb : b < 256) : Word32.sub b 1 < 0x7f ↔ 0 < b ∧ b < 0x80 := by
  unfold Word32.sub
  omega

theorem test_lead (hb : b < 256) : Word32.sub b SA > SB - SA ↔ ¬(0xC2 ≤ b ∧ b < 0xF5) := by
  unfold Word32.sub SA SB
  omega

theorem test_trail (hb : b < 256) : Word32.sub b 0x80 ≥ 0x40 ↔ ¬Trail b := by
  unfold Word32.sub Trail
  omega

theorem second_trail (h : Second b b₁) : Trail b₁ := by
  unfold Second at h
  unfold Trail
  split_ifs at h <;> omega

/-- Six more bits. -/
theorem shift_in (h : Trail b) : Word32.shl c 6 ||| Word32.sub b 0x80 = Word32.shl c 6 + (b - 0x80) := by
  unfold Trail at h
  rw [Word32.sub_of_le h.1 (by omega), Word32.shl_or (by omega)]

/-! ### One time round -/

/-- Both loops read one character. -/
structure Accepts (s : List ℕ) (c : ℕ) (rest : List ℕ) : Prop where
  store : storeRound s = .char c rest
  count : countRound s = .char 0 rest

/-- Both loops stop, and not at the end of the string. -/
structure Rejects (s : List ℕ) : Prop where
  store : ∃ c, storeRound s = .stop c s ∧ ¬(c = 0 ∧ s.headD 0 = 0)
  count : ∃ c, countRound s = .stop c s ∧ ¬(c = 0 ∧ s.headD 0 = 0)

theorem accepts_ascii (h : 0 < b ∧ b < 0x80) : Accepts (b :: s) b s := by
  have htest : Word32.sub b 1 < 0x7f := (test_ascii (by omega)).mpr h
  constructor
  · unfold storeRound
    exact if_pos htest
  · unfold countRound
    exact if_pos htest

theorem rejects_lead (hb : 0x80 ≤ b ∧ b < 256) (h : ¬(0xC2 ≤ b ∧ b < 0xF5)) : Rejects (b :: s) := by
  have hascii : ¬Word32.sub b 1 < 0x7f := fun ht => by
    have := (test_ascii hb.2).mp ht
    omega
  have hlead : Word32.sub b SA > SB - SA := (test_lead hb.2).mpr h
  have hne : ¬((0 : ℕ) = 0 ∧ (b :: s).headD 0 = 0) := fun hz => by
    have : b = 0 := hz.2
    omega
  constructor
  · refine ⟨0, ?_, hne⟩
    unfold storeRound
    exact (if_neg hascii).trans (if_pos hlead)
  · refine ⟨0, ?_, hne⟩
    unfold countRound
    exact (if_neg hascii).trans (if_pos hlead)

/-- What the loops do behind the lead byte at entry `i`. -/
theorem round_lead {i : ℕ} (hi : i < 51) (hb₁ : s.headD 0 < 256) :
    (Second (0xC2 + i) (s.headD 0) →
      storeRound ((0xC2 + i) :: s) = (
        let c := Word32.shl (bittab.getD i 0) 6 + (s.headD 0 - 0x80)
        if c &&& 2 ^ 31 ≠ 0 then
          if Word32.sub (s.tail.headD 0) 0x80 ≥ 0x40 then .stop c ((0xC2 + i) :: s)
          else
            let c := Word32.shl c 6 ||| Word32.sub (s.tail.headD 0) 0x80
            if c &&& 2 ^ 31 ≠ 0 then
              if Word32.sub (s.tail.tail.headD 0) 0x80 ≥ 0x40 then .stop c ((0xC2 + i) :: s)
              else .char (Word32.shl c 6 ||| Word32.sub (s.tail.tail.headD 0) 0x80) s.tail.tail.tail
            else .char c s.tail.tail
        else .char c s.tail) ∧
      countRound ((0xC2 + i) :: s) = (
        if bittab.getD i 0 &&& 2 ^ 25 ≠ 0 then
          if Word32.sub (s.tail.headD 0) 0x80 ≥ 0x40 then .stop (bittab.getD i 0) ((0xC2 + i) :: s)
          else
            if bittab.getD i 0 &&& 2 ^ 19 ≠ 0 then
              if Word32.sub (s.tail.tail.headD 0) 0x80 ≥ 0x40 then
                .stop (bittab.getD i 0) ((0xC2 + i) :: s)
              else .char 0 s.tail.tail.tail
            else .char 0 s.tail.tail
        else .char 0 s.tail)) ∧
    (¬Second (0xC2 + i) (s.headD 0) → Rejects ((0xC2 + i) :: s)) := by
  have hascii : ¬Word32.sub (0xC2 + i) 1 < 0x7f := fun ht => by
    have := (test_ascii (by omega)).mp ht
    omega
  have hlead : ¬Word32.sub (0xC2 + i) SA > SB - SA := by
    rw [test_lead (by omega), not_not]
    omega
  have hidx : 0xC2 + i - SA = i := Nat.add_sub_cancel_left _ _
  constructor
  · intro h
    have hoob := (oob_entry i hi _ hb₁).mpr h
    constructor
    · unfold storeRound
      simp only [List.headD_cons, List.tail_cons, hidx]
      rw [if_neg hascii, if_neg hlead, if_neg (not_not.mpr hoob), shift_in (second_trail h)]
    · unfold countRound
      simp only [List.headD_cons, List.tail_cons, hidx]
      rw [if_neg hascii, if_neg hlead, if_neg (not_not.mpr hoob)]
  · intro h
    have hoob : OOB (bittab.getD i 0) (s.headD 0) ≠ 0 := fun hz => h ((oob_entry i hi _ hb₁).mp hz)
    have hne : ¬(bittab.getD i 0 = 0 ∧ ((0xC2 + i) :: s).headD 0 = 0) := fun hz =>
      entry_ne_zero i hi hz.1
    constructor
    · refine ⟨bittab.getD i 0, ?_, hne⟩
      unfold storeRound
      simp only [List.headD_cons, List.tail_cons, hidx]
      rw [if_neg hascii, if_neg hlead, if_pos hoob]
    · refine ⟨bittab.getD i 0, ?_, hne⟩
      unfold countRound
      simp only [List.headD_cons, List.tail_cons, hidx]
      rw [if_neg hascii, if_neg hlead, if_pos hoob]

section Rows

variable {x : ℕ}

theorem round_two (hx : x < 30) (h₁ : Second (0xC2 + x) (s.headD 0)) :
    Accepts ((0xC2 + x) :: s) ((x + 2) * 64 + (s.headD 0 - 0x80)) s.tail := by
  have ht := second_trail h₁
  unfold Trail at ht
  obtain ⟨hstore, hcount⟩ := (round_lead (i := x) (s := s) (by omega) (by omega)).1 h₁
  obtain ⟨hentry, hmark⟩ := entry_two x hx
  have hlast : (x + 2) * 64 + (s.headD 0 - 0x80) &&& 2 ^ 31 = 0 :=
    Word32.and_two_pow_eq_zero.mpr (by omega)
  constructor
  · rw [hstore, hentry]
    exact if_neg (not_not.mpr hlast)
  · rw [hcount]
    exact if_neg (not_not.mpr hmark)

/-- The state after the second byte of three. -/
theorem shl_state_three (hx : x < 16) {t : ℕ} (ht : t < 64) :
    0xC0000000 + x * 64 + t &&& 2 ^ 31 ≠ 0 ∧
      Word32.shl (0xC0000000 + x * 64 + t) 6 = (x * 64 + t) * 64 := by
  constructor
  · rw [ne_eq, Word32.and_two_pow_eq_zero]
    omega
  · unfold Word32.shl
    rw [Nat.shiftLeft_eq]
    omega

theorem round_three (hx : x < 16) (h₁ : Second (0xE0 + x) (s.headD 0)) (hb₂ : s.tail.headD 0 < 256) :
    (Trail (s.tail.headD 0) → Accepts ((0xE0 + x) :: s)
      ((x * 64 + (s.headD 0 - 0x80)) * 64 + (s.tail.headD 0 - 0x80)) s.tail.tail) ∧
    (¬Trail (s.tail.headD 0) → Rejects ((0xE0 + x) :: s)) := by
  have ht := second_trail h₁
  unfold Trail at ht
  have hlead : 0xC2 + (30 + x) = 0xE0 + x := by omega
  obtain ⟨hstore, hcount⟩ := (round_lead (i := 30 + x) (s := s) (by omega) (by omega)).1 (by rwa [hlead])
  obtain ⟨hentry, hmark, hlast⟩ := entry_three x hx
  obtain ⟨hmore, hshl⟩ := shl_state_three hx (show s.headD 0 - 0x80 < 64 by omega)
  rw [hlead, hentry] at hstore
  rw [hlead, if_pos hmark] at hcount
  dsimp only at hstore
  rw [if_pos hmore] at hstore
  constructor
  · intro h₂
    have hok : ¬Word32.sub (s.tail.headD 0) 0x80 ≥ 0x40 := fun hbad => (test_trail hb₂).mp hbad h₂
    have hdone : (x * 64 + (s.headD 0 - 0x80)) * 64 + (s.tail.headD 0 - 0x80) &&& 2 ^ 31 = 0 := by
      unfold Trail at h₂
      exact Word32.and_two_pow_eq_zero.mpr (by omega)
    constructor
    · rw [hstore, if_neg hok, shift_in h₂, hshl]
      exact if_neg (not_not.mpr hdone)
    · rw [hcount, if_neg hok]
      exact if_neg (not_not.mpr hlast)
  · intro h₂
    have hbad : Word32.sub (s.tail.headD 0) 0x80 ≥ 0x40 := (test_trail hb₂).mpr h₂
    refine ⟨⟨_, hstore.trans (if_pos hbad), fun hz => ?_⟩, ⟨_, hcount.trans (if_pos hbad), fun hz => ?_⟩⟩
    · exact absurd hz.1 (by omega)
    · exact entry_ne_zero _ (by omega) hz.1

/-- The states after the second and the third byte of four. -/
theorem shl_state_four (hx : x < 5) {t u : ℕ} (ht : t < 64) (hu : u < 64) :
    0xC3000000 + x * 64 + t &&& 2 ^ 31 ≠ 0 ∧
      Word32.shl (0xC3000000 + x * 64 + t) 6 = 0xC0000000 + (x * 64 + t) * 64 ∧
      0xC0000000 + (x * 64 + t) * 64 + u &&& 2 ^ 31 ≠ 0 ∧
      Word32.shl (0xC0000000 + (x * 64 + t) * 64 + u) 6 = ((x * 64 + t) * 64 + u) * 64 := by
  refine ⟨?_, ?_, ?_, ?_⟩
  · rw [ne_eq, Word32.and_two_pow_eq_zero]
    omega
  · unfold Word32.shl
    rw [Nat.shiftLeft_eq]
    omega
  · rw [ne_eq, Word32.and_two_pow_eq_zero]
    omega
  · unfold Word32.shl
    rw [Nat.shiftLeft_eq]
    omega

theorem round_four (hx : x < 5) (h₁ : Second (0xF0 + x) (s.headD 0)) (hb₂ : s.tail.headD 0 < 256)
    (hb₃ : s.tail.tail.headD 0 < 256) :
    (Trail (s.tail.headD 0) ∧ Trail (s.tail.tail.headD 0) → Accepts ((0xF0 + x) :: s)
      (((x * 64 + (s.headD 0 - 0x80)) * 64 + (s.tail.headD 0 - 0x80)) * 64
        + (s.tail.tail.headD 0 - 0x80)) s.tail.tail.tail) ∧
    (¬(Trail (s.tail.headD 0) ∧ Trail (s.tail.tail.headD 0)) → Rejects ((0xF0 + x) :: s)) := by
  have ht := second_trail h₁
  unfold Trail at ht
  have hlead : 0xC2 + (46 + x) = 0xF0 + x := by omega
  obtain ⟨hstore, hcount⟩ := (round_lead (i := 46 + x) (s := s) (by omega) (by omega)).1 (by rwa [hlead])
  obtain ⟨hentry, hmark, hmark'⟩ := entry_four x hx
  have hstate := fun u (hu : u < 64) => shl_state_four hx (show s.headD 0 - 0x80 < 64 by omega) hu
  obtain ⟨hmore, hshl, -, -⟩ := hstate 0 (by norm_num)
  rw [hlead, hentry] at hstore
  rw [hlead, if_pos hmark] at hcount
  dsimp only at hstore
  rw [if_pos hmore] at hstore
  by_cases h₂ : Trail (s.tail.headD 0)
  · have hok₂ : ¬Word32.sub (s.tail.headD 0) 0x80 ≥ 0x40 := fun hbad => (test_trail hb₂).mp hbad h₂
    have hu : s.tail.headD 0 - 0x80 < 64 := by
      unfold Trail at h₂
      omega
    obtain ⟨-, -, hmore', hshl'⟩ := hstate _ hu
    rw [if_neg hok₂, shift_in h₂, hshl, if_pos hmore'] at hstore
    rw [if_neg hok₂, if_pos hmark'] at hcount
    constructor
    · rintro ⟨-, h₃⟩
      have hok₃ : ¬Word32.sub (s.tail.tail.headD 0) 0x80 ≥ 0x40 := fun hbad =>
        (test_trail hb₃).mp hbad h₃
      constructor
      · rw [hstore, if_neg hok₃, shift_in h₃, hshl']
      · rw [hcount, if_neg hok₃]
    · intro h
      have hbad : Word32.sub (s.tail.tail.headD 0) 0x80 ≥ 0x40 :=
        (test_trail hb₃).mpr fun h₃ => h ⟨h₂, h₃⟩
      refine ⟨⟨_, hstore.trans (if_pos hbad), fun hz => ?_⟩,
        ⟨_, hcount.trans (if_pos hbad), fun hz => ?_⟩⟩
      · exact absurd hz.1 (by omega)
      · exact entry_ne_zero _ (by omega) hz.1
  · have hbad : Word32.sub (s.tail.headD 0) 0x80 ≥ 0x40 := (test_trail hb₂).mpr h₂
    refine ⟨fun h => absurd h.1 h₂, fun _ => ?_⟩
    refine ⟨⟨_, hstore.trans (if_pos hbad), fun hz => ?_⟩, ⟨_, hcount.trans (if_pos hbad), fun hz => ?_⟩⟩
    · exact absurd hz.1 (by omega)
    · exact entry_ne_zero _ (by omega) hz.1

end Rows

/-- **An encoded character** is read. -/
theorem accepts_encoded {l : List ℕ} (h : Encoded c l) (hc : c ≠ 0) : Accepts (l ++ rest) c rest := by
  cases h with
  | one h => exact accepts_ascii ⟨Nat.pos_of_ne_zero hc, h⟩
  | @two b b₁ h h₁ =>
    obtain ⟨x, rfl⟩ := Nat.exists_eq_add_of_le h.1
    rw [show 0xC2 + x - 0xC0 = x + 2 by omega]
    exact round_two (s := b₁ :: rest) (by omega) h₁
  | @three b b₁ b₂ h h₁ h₂ =>
    obtain ⟨x, rfl⟩ := Nat.exists_eq_add_of_le h.1
    rw [Nat.add_sub_cancel_left]
    exact (round_three (s := b₁ :: b₂ :: rest) (by omega) h₁ (h₂.2.trans (by norm_num))).1 h₂
  | @four b b₁ b₂ b₃ h h₁ h₂ h₃ =>
    obtain ⟨x, rfl⟩ := Nat.exists_eq_add_of_le h.1
    rw [Nat.add_sub_cancel_left]
    exact (round_four (s := b₁ :: b₂ :: b₃ :: rest) (by omega) h₁ (h₂.2.trans (by norm_num))
      (h₃.2.trans (by norm_num))).1 ⟨h₂, h₃⟩

/-- A byte that continues is there. -/
theorem cons_of_trail (h : Trail (s.headD 0)) : s = s.headD 0 :: s.tail := by
  cases s with
  | nil => exact absurd h (by decide)
  | cons b s => rfl

theorem IsBytes.headD_lt (h : IsBytes s) : s.headD 0 < 256 := by
  cases s with
  | nil => norm_num
  | cons b s => exact (h b List.mem_cons_self).2

theorem IsBytes.tail (h : IsBytes s) : IsBytes s.tail := fun b hb => h b (List.mem_of_mem_tail hb)

/-- **One time round**: the end of the string, an encoded character, or a stop. -/
theorem round_cases (hs : IsBytes s) : s = [] ∨
    (∃ c l rest, Encoded c l ∧ c ≠ 0 ∧ s = l ++ rest ∧ Accepts s c rest) ∨ Rejects s := by
  cases s with
  | nil => exact Or.inl rfl
  | cons b s =>
    obtain ⟨hpos, hb⟩ := hs b List.mem_cons_self
    have hs₁ : IsBytes s := hs.tail
    have hb₁ := hs₁.headD_lt
    have hb₂ := hs₁.tail.headD_lt
    have hb₃ := hs₁.tail.tail.headD_lt
    refine Or.inr ?_
    -- it is enough to split the encoding off
    suffices h : (∃ c l rest, Encoded c l ∧ c ≠ 0 ∧ b :: s = l ++ rest) ∨ Rejects (b :: s) by
      rcases h with ⟨c, l, rest, hl, hc, heq⟩ | h
      · refine Or.inl ⟨c, l, rest, hl, hc, heq, ?_⟩
        rw [heq]
        exact accepts_encoded hl hc
      · exact Or.inr h
    by_cases hone : b < 0x80
    · exact Or.inl ⟨b, [b], s, .one hone, hpos.ne', rfl⟩
    by_cases hlead : 0xC2 ≤ b ∧ b < 0xF5
    · by_cases h₁ : Second b (s.headD 0)
      · have hs' := cons_of_trail (second_trail h₁)
        have hge := (second_trail h₁).1
        by_cases htwo : b < 0xE0
        · refine Or.inl ⟨_, _, s.tail, .two ⟨hlead.1, htwo⟩ h₁, by omega, ?_⟩
          rw [hs']
          rfl
        by_cases hthree : b < 0xF0
        · obtain ⟨x, rfl⟩ := Nat.exists_eq_add_of_le (Nat.not_lt.mp htwo)
          by_cases h₂ : Trail (s.tail.headD 0)
          · have hsc := (encode_three (by omega) h₁ h₂).2
            refine Or.inl ⟨_, _, s.tail.tail, .three (by omega) h₁ h₂, fun hz => ?_, ?_⟩
            · rw [hz, encode_one (by norm_num)] at hsc
              cases (List.cons.inj hsc).2
            · rw [hs', cons_of_trail h₂]
              rfl
          · exact Or.inr ((round_three (by omega) h₁ hb₂).2 h₂)
        · obtain ⟨x, rfl⟩ := Nat.exists_eq_add_of_le (Nat.not_lt.mp hthree)
          by_cases h₂₃ : Trail (s.tail.headD 0) ∧ Trail (s.tail.tail.headD 0)
          · have hsc := (encode_four (by omega) h₁ h₂₃.1 h₂₃.2).2
            refine Or.inl ⟨_, _, s.tail.tail.tail, .four (by omega) h₁ h₂₃.1 h₂₃.2, fun hz => ?_, ?_⟩
            · rw [hz, encode_one (by norm_num)] at hsc
              cases (List.cons.inj hsc).2
            · rw [hs', cons_of_trail h₂₃.1, cons_of_trail h₂₃.2]
              rfl
          · exact Or.inr ((round_four (by omega) h₁ hb₂ hb₃).2 h₂₃)
      · obtain ⟨i, rfl⟩ := Nat.exists_eq_add_of_le hlead.1
        exact Or.inr ((round_lead (by omega) hb₁).2 h₁)
    · exact Or.inr (rejects_lead ⟨Nat.not_lt.mp hone, hb⟩ hlead)

/-! ### Decoding a string -/

variable {cs : List ℕ} {n k : ℕ}

theorem IsText.of_cons (h : IsText (c :: cs)) : (c ≠ 0 ∧ IsScalar c) ∧ IsText cs :=
  List.forall_mem_cons.mp h

theorem length_le_flatMap (cs : List ℕ) : cs.length ≤ (cs.flatMap encode).length := by
  induction cs with
  | nil => exact le_rfl
  | cons c cs ih =>
    have hpos := length_encode_pos c
    rw [List.flatMap_cons, List.length_append, List.length_cons]
    omega

theorem storeLoop_text (wn0 : ℕ) : ∀ {cs : List ℕ} {n : ℕ} {ws : List ℕ}, IsText cs → cs.length < n →
    storeLoop storeRound wn0 n (cs.flatMap encode) ws
      = { ret := some (wn0 - (n - cs.length)), ws := ws ++ cs ++ [0], src := none } := by
  intro cs
  induction cs with
  | nil =>
    intro n ws _ hn
    obtain ⟨n, rfl⟩ := Nat.exists_eq_succ_of_ne_zero hn.ne'
    simp [storeLoop, storeRound, Word32.sub, SA, SB]
  | cons c cs ih =>
    intro n ws h hn
    obtain ⟨⟨hc, hsc⟩, hcs⟩ := h.of_cons
    rw [List.length_cons] at hn
    obtain ⟨n, rfl⟩ := Nat.exists_eq_succ_of_ne_zero (Nat.ne_of_gt (Nat.zero_lt_of_lt hn))
    rw [List.flatMap_cons, storeLoop, (accepts_encoded (.of_scalar hsc) hc).store]
    dsimp only
    rw [ih hcs (by omega), List.append_assoc ws, List.singleton_append, List.length_cons,
      Nat.succ_sub_succ]

theorem countLoop_text (src : List ℕ) : ∀ {cs : List ℕ} {fuel k : ℕ}, IsText cs → cs.length < fuel →
    countLoop countRound src fuel (cs.flatMap encode) k = { ret := some (k + cs.length), src := some src } := by
  intro cs
  induction cs with
  | nil =>
    intro fuel k _ hn
    obtain ⟨fuel, rfl⟩ := Nat.exists_eq_succ_of_ne_zero hn.ne'
    simp [countLoop, countRound, Word32.sub, SA, SB]
  | cons c cs ih =>
    intro fuel k h hn
    obtain ⟨⟨hc, hsc⟩, hcs⟩ := h.of_cons
    rw [List.length_cons] at hn
    obtain ⟨fuel, rfl⟩ := Nat.exists_eq_succ_of_ne_zero (Nat.ne_of_gt (Nat.zero_lt_of_lt hn))
    rw [List.flatMap_cons, countLoop, (accepts_encoded (.of_scalar hsc) hc).count]
    dsimp only
    rw [ih hcs (by omega), List.length_cons, Nat.add_assoc, Nat.add_comm 1]

/-- A malformed string has a malformed rest behind a character that is read. -/
theorem round_malformed (hs : IsBytes s) (h : ¬WellFormed s) : Rejects s ∨
    ∃ c rest, Accepts s c rest ∧ IsBytes rest ∧ ¬WellFormed rest ∧ rest.length < s.length := by
  rcases round_cases hs with rfl | ⟨c, l, rest, hl, -, heq, hacc⟩ | hrej
  · exact absurd .nil h
  · subst heq
    refine Or.inr ⟨c, rest, hacc, fun b hb => hs b (List.mem_append_right _ hb), ?_, ?_⟩
    · exact fun hrest => h (.cons hl hrest)
    · rw [hl.eq_encode, List.length_append]
      exact Nat.lt_add_of_pos_left (length_encode_pos c)
  · exact Or.inl hrej

theorem storeLoop_malformed (wn0 : ℕ) : ∀ {n : ℕ} {s ws : List ℕ}, IsBytes s → ¬WellFormed s →
    s.length < n → (storeLoop storeRound wn0 n s ws).ret = none ∧
      (storeLoop storeRound wn0 n s ws).errno = some .EILSEQ := by
  intro n
  induction n with
  | zero => exact fun _ _ hn => absurd hn (Nat.not_lt_zero _)
  | succ n ih =>
    intro s ws hs h hn
    rcases round_malformed hs h with ⟨⟨c, hstop, hne⟩, -⟩ | ⟨c, rest, ⟨hstore, -⟩, hbytes, hrest, hlt⟩
    · rw [storeLoop, hstop]
      dsimp only
      rw [if_neg hne]
      exact ⟨rfl, rfl⟩
    · rw [storeLoop, hstore]
      exact ih hbytes hrest (by omega)

theorem countLoop_malformed (src : List ℕ) : ∀ {fuel : ℕ} {s : List ℕ} {k : ℕ}, IsBytes s →
    ¬WellFormed s → s.length < fuel →
    countLoop countRound src fuel s k = { ret := none, errno := some .EILSEQ, src := some src } := by
  intro fuel
  induction fuel with
  | zero => exact fun _ _ hn => absurd hn (Nat.not_lt_zero _)
  | succ fuel ih =>
    intro s k hs h hn
    rcases round_malformed hs h with ⟨-, ⟨c, hstop, hne⟩⟩ | ⟨c, rest, ⟨-, hcount⟩, hbytes, hrest, hlt⟩
    · rw [countLoop, hstop]
      exact if_neg hne
    · rw [countLoop, hcount]
      exact ih hbytes hrest (by omega)

/-! ### Encoding a string -/

/-- Bits under a mark, as a sum. -/
theorem mark_or {m x k : ℕ} (hx : x < 2 ^ k) : 2 ^ k * m ||| x = 2 ^ k * m + x :=
  (Nat.two_pow_add_eq_or_of_lt hx m).symm

theorem mark_trail (x : ℕ) : 0x80 ||| (x &&& 0x3f) = 0x80 + x % 64 := by
  rw [show x &&& 0x3f = x % 64 from Nat.and_two_pow_sub_one_eq_mod x 6]
  exact mark_or (m := 2) (k := 6) (by omega)

/-- **`wcrtomb`** encodes the scalar values. -/
theorem wcrtomb_scalar (h : IsScalar c) : wcrtomb c = some (encode c) := by
  unfold IsScalar at h
  unfold wcrtomb encode
  simp only [mark_trail, Nat.shiftRight_eq_div_pow]
  split_ifs with h1 h2 h3 h4 h5 h6
  · rfl
  · rw [show (0xc0 ||| c / 2 ^ 6) = 0xc0 + c / 2 ^ 6 from mark_or (m := 6) (k := 5) (by omega)]
    norm_num
  · rw [show (0xe0 ||| c / 2 ^ 12) = 0xe0 + c / 2 ^ 12 from mark_or (m := 14) (k := 4) (by omega)]
    norm_num
  · exfalso
    unfold Word32.sub at h3
    omega
  · exfalso
    unfold Word32.sub at h3
    omega
  · rw [show (0xf0 ||| c / 2 ^ 18) = 0xf0 + c / 2 ^ 18 from mark_or (m := 30) (k := 3) (by omega)]
    norm_num
  · exfalso
    unfold Word32.sub at h3 h5
    omega

/-- The test for an ASCII character that is not the terminator. -/
theorem test_ascii_wide (h : IsScalar c) : Word32.sub c 1 ≥ 0x7f ↔ ¬(0 < c ∧ c < 0x80) := by
  unfold IsScalar at h
  unfold Word32.sub
  omega

/-- What `wcsrtombs` does when it has room: all of the encoding, and the terminator. -/
def encoded (N n : ℕ) (cs s : List ℕ) : ToBytes :=
  ⟨some (N - (n - (cs.flatMap encode).length)), none, s ++ cs.flatMap encode ++ [0], none⟩

theorem encoded_cons (N n : ℕ) (c : ℕ) (cs s : List ℕ) :
    encoded N (n - (encode c).length) cs (s ++ encode c) = encoded N n (c :: cs) s := by
  unfold encoded
  rw [List.flatMap_cons, List.length_append, Nat.sub_sub, List.append_assoc s]

theorem tailLoop_text (N : ℕ) : ∀ {cs : List ℕ} {n : ℕ} {s : List ℕ}, IsText cs →
    (cs.flatMap encode).length < n → tailLoop N cs n s = encoded N n cs s := by
  intro cs
  induction cs with
  | nil =>
    intro n s _ hn
    have hpos : n ≠ 0 := Nat.ne_of_gt hn
    rw [tailLoop, if_neg hpos, encoded, List.flatMap_nil, List.append_nil]
    rfl
  | cons c cs ih =>
    intro n s h hn
    obtain ⟨⟨hc, hsc⟩, hcs⟩ := h.of_cons
    rw [List.flatMap_cons, List.length_append] at hn
    rw [← encoded_cons, tailLoop, if_neg (by omega), wcrtomb_scalar hsc]
    by_cases hwide : Word32.sub c 1 ≥ 0x7f
    · rw [if_pos hwide, if_neg hc]
      dsimp only
      rw [if_neg (by omega), ih hcs (by omega)]
    · have hone : encode c = [c] := encode_one (not_not.mp (mt (test_ascii_wide hsc).mpr hwide)).2
      rw [hone, List.length_singleton] at hn ⊢
      rw [if_neg hwide, ih hcs (by omega)]

theorem bytesLoop_text (N : ℕ) : ∀ {cs : List ℕ} {n : ℕ} {s : List ℕ}, IsText cs →
    (cs.flatMap encode).length < n → bytesLoop N cs n s = encoded N n cs s := by
  intro cs
  induction cs with
  | nil =>
    intro n s h hn
    rw [bytesLoop]
    split_ifs
    · exact tailLoop_text N h hn
    · rw [encoded, List.flatMap_nil, List.append_nil]
      rfl
  | cons c cs ih =>
    intro n s h hn
    obtain ⟨⟨hc, hsc⟩, hcs⟩ := h.of_cons
    rw [bytesLoop]
    by_cases hfew : n < 4
    · rw [if_pos hfew]
      exact tailLoop_text N h hn
    rw [List.flatMap_cons, List.length_append] at hn
    rw [if_neg hfew, ← encoded_cons, wcrtomb_scalar hsc]
    by_cases hwide : Word32.sub c 1 ≥ 0x7f
    · rw [if_pos hwide, if_neg hc]
      dsimp only
      rw [ih hcs (by omega)]
    · have hone : encode c = [c] := encode_one (not_not.mp (mt (test_ascii_wide hsc).mpr hwide)).2
      rw [hone, List.length_singleton] at hn ⊢
      rw [if_neg hwide, ih hcs (by omega)]

theorem lengthLoop_text (src : List ℕ) : ∀ {cs : List ℕ} {k : ℕ}, IsText cs →
    lengthLoop src cs k = { ret := some (k + (cs.flatMap encode).length), ws := some src } := by
  intro cs
  induction cs with
  | nil => exact fun _ => rfl
  | cons c cs ih =>
    intro k h
    obtain ⟨⟨hc, hsc⟩, hcs⟩ := h.of_cons
    rw [lengthLoop, if_neg hc, wcrtomb_scalar hsc, List.flatMap_cons, List.length_append]
    split_ifs with hwide
    · dsimp only
      rw [ih hcs, Nat.add_assoc]
    · rw [ih hcs, encode_one (Nat.not_le.mp hwide), List.length_singleton, Nat.add_assoc]

/-! ### The calls -/

/-- `mbstowcs` of a text. -/
theorem mbstowcs_text (h : IsText cs) :
    (∀ n, cs.length < n →
      mbstowcs false (cs.flatMap encode) n = ⟨some cs.length, none, cs ++ [0], none⟩) ∧
    ∀ n, (mbstowcs true (cs.flatMap encode) n).ret = some cs.length := by
  constructor
  · intro n hn
    unfold mbstowcs mbsrtowcs
    rw [if_neg Bool.false_ne_true, storeLoop_text n h hn, Nat.sub_sub_self hn.le, List.nil_append]
  · intro n
    unfold mbstowcs mbsrtowcs
    rw [if_pos rfl, countLoop_text _ h (Nat.lt_succ_of_le (length_le_flatMap cs)), Nat.zero_add]

/-- `wcstombs` of a text. -/
theorem wcstombs_text (h : IsText cs) :
    (∀ n, (cs.flatMap encode).length < n →
      wcstombs false cs n = ⟨some (cs.flatMap encode).length, none, cs.flatMap encode ++ [0], none⟩) ∧
    ∀ n, (wcstombs true cs n).ret = some (cs.flatMap encode).length := by
  constructor
  · intro n hn
    show bytesLoop n cs n [] = _
    rw [bytesLoop_text n h hn, encoded, Nat.sub_sub_self hn.le, List.nil_append]
  · intro n
    show (lengthLoop cs cs 0).ret = _
    rw [lengthLoop_text _ h, Nat.zero_add]

/-- `mbstowcs` of a malformed string. -/
theorem mbstowcs_malformed (hs : IsBytes s) (h : ¬WellFormed s) :
    (∀ n, s.length < n →
      (mbstowcs false s n).ret = none ∧ (mbstowcs false s n).errno = some .EILSEQ) ∧
    ∀ n, (mbstowcs true s n).ret = none ∧ (mbstowcs true s n).errno = some .EILSEQ := by
  constructor
  · intro n hn
    unfold mbstowcs mbsrtowcs
    rw [if_neg Bool.false_ne_true]
    exact storeLoop_malformed n hs h hn
  · intro n
    unfold mbstowcs mbsrtowcs
    rw [if_pos rfl, countLoop_malformed s hs h (Nat.lt_succ_self _)]
    exact ⟨rfl, rfl⟩

/-- A well-formed string is the encoding of a text. -/
theorem exists_text (hs : IsBytes s) (h : WellFormed s) : ∃ cs, IsText cs ∧ s = cs.flatMap encode := by
  obtain ⟨cs, hcs, rfl⟩ := wellFormed_iff.mp h
  refine ⟨cs, fun c hc => ⟨?_, hcs c hc⟩, rfl⟩
  rintro rfl
  have hzero := hs 0 (List.mem_flatMap.mpr ⟨0, hc, by simp [encode]⟩)
  exact absurd hzero.1 (lt_irrefl 0)

theorem IsText.isBytes (h : IsText cs) : IsBytes (cs.flatMap encode) := by
  intro b hb
  obtain ⟨c, hc, hb⟩ := List.mem_flatMap.mp hb
  exact mem_encode (h c hc).2 (h c hc).1 hb

theorem IsText.wellFormed (h : IsText cs) : WellFormed (cs.flatMap encode) :=
  wellFormed_iff.mpr ⟨cs, fun c hc => (h c hc).2, rfl⟩

/-- `wcstombs` turns `cs` into `s`, and `mbstowcs` turns `s` into `cs`, with the terminator, when there is
room for it; and both say how much room that is. -/
structure Converts (cs s : List ℕ) : Prop where
  encode : ∀ n, s.length < n → wcstombs false cs n = ⟨some s.length, none, s ++ [0], none⟩
  encodeLength : ∀ n, (wcstombs true cs n).ret = some s.length
  decode : ∀ n, cs.length < n → mbstowcs false s n = ⟨some cs.length, none, cs ++ [0], none⟩
  decodeLength : ∀ n, (mbstowcs true s n).ret = some cs.length

theorem IsText.converts (h : IsText cs) : Converts cs (cs.flatMap Utf8.encode) :=
  ⟨(wcstombs_text h).1, (wcstombs_text h).2, (mbstowcs_text h).1, (mbstowcs_text h).2⟩

/-- **The conversions are UTF-8.**  Every string of scalar values is converted to bytes and back.  Every string
of bytes is either well formed, and then it is converted to scalar values and back, or refused with `EILSEQ`. -/
theorem utf8_exact :
    (∀ cs, IsText cs → ∃ s, IsBytes s ∧ WellFormed s ∧ Converts cs s) ∧
    ∀ s, IsBytes s → (WellFormed s ∧ ∃ cs, IsText cs ∧ Converts cs s) ∨
      ¬WellFormed s ∧ (∀ n, s.length < n →
        (mbstowcs false s n).ret = none ∧ (mbstowcs false s n).errno = some .EILSEQ) ∧
        ∀ n, (mbstowcs true s n).ret = none ∧ (mbstowcs true s n).errno = some .EILSEQ := by
  constructor
  · intro cs h
    exact ⟨_, h.isBytes, h.wellFormed, h.converts⟩
  · intro s hs
    by_cases hwf : WellFormed s
    · obtain ⟨cs, hcs, rfl⟩ := exists_text hs hwf
      exact Or.inl ⟨hwf, cs, hcs, hcs.converts⟩
    · exact Or.inr ⟨hwf, mbstowcs_malformed hs hwf⟩

/-- The euro sign and a character of four bytes. -/
theorem utf8_exact_euro : ∃ s, IsBytes s ∧ WellFormed s ∧ Converts [0x20AC, 0x1F600] s :=
  utf8_exact.1 [0x20AC, 0x1F600] (by unfold IsText; decide)

/-- An encoded surrogate is refused, and `*src` is left at it. -/
example : mbstowcs false [0x41, 0xED, 0xA0, 0x80] 8
    = ⟨none, some .EILSEQ, [0x41], some [0xED, 0xA0, 0x80]⟩ := by decide +kernel

end OrbisCompat.Wchar
