import Mathlib.Data.List.Basic
import Mathlib.Tactic.NormNum

/-!
# UTF-8

`encode c` is the UTF-8 encoding of a code point, in bytes as naturals.  `WellFormed` is the table of well-formed
byte sequences: which bytes may lead, how many follow, and the ranges of the second one, which leave out
overlong forms, surrogates and what lies above `0x10FFFF`.

The two agree.  What the table allows is the encoding of a scalar value (`encode_two` and the two after it),
and the encoding of a scalar value is what the table allows (`Encoded.of_scalar`), so a sequence is well formed
exactly when it is the encoding of scalar values (`wellFormed_iff`).
-/

namespace Utf8

/-- A Unicode scalar value: a code point that is no surrogate. -/
def IsScalar (c : ℕ) : Prop := c < 0xD800 ∨ 0xE000 ≤ c ∧ c < 0x110000

instance (c : ℕ) : Decidable (IsScalar c) :=
  inferInstanceAs (Decidable (c < 0xD800 ∨ 0xE000 ≤ c ∧ c < 0x110000))

/-- The encoding of a code point. -/
def encode (c : ℕ) : List ℕ :=
  if c < 0x80 then [c]
  else if c < 0x800 then [0xC0 + c / 64, 0x80 + c % 64]
  else if c < 0x10000 then [0xE0 + c / 4096, 0x80 + c / 64 % 64, 0x80 + c % 64]
  else [0xF0 + c / 262144, 0x80 + c / 4096 % 64, 0x80 + c / 64 % 64, 0x80 + c % 64]

/-- A continuation byte. -/
def Trail (b : ℕ) : Prop := 0x80 ≤ b ∧ b < 0xC0

instance (b : ℕ) : Decidable (Trail b) := inferInstanceAs (Decidable (0x80 ≤ b ∧ b < 0xC0))

/-- A continuation byte that may follow the lead byte `b`. -/
def Second (b b₁ : ℕ) : Prop :=
  (if b = 0xE0 then 0xA0 else if b = 0xF0 then 0x90 else 0x80) ≤ b₁ ∧
    b₁ < if b = 0xED then 0xA0 else if b = 0xF4 then 0x90 else 0xC0

instance (b b₁ : ℕ) : Decidable (Second b b₁) := inferInstanceAs (Decidable (_ ∧ _))

/-- The well-formed sequences, character by character. -/
inductive WellFormed : List ℕ → Prop
  | nil : WellFormed []
  | one {b : ℕ} {s : List ℕ} (h : b < 0x80) (hs : WellFormed s) : WellFormed (b :: s)
  | two {b b₁ : ℕ} {s : List ℕ} (h : 0xC2 ≤ b ∧ b < 0xE0) (h₁ : Second b b₁) (hs : WellFormed s) :
      WellFormed (b :: b₁ :: s)
  | three {b b₁ b₂ : ℕ} {s : List ℕ} (h : 0xE0 ≤ b ∧ b < 0xF0) (h₁ : Second b b₁) (h₂ : Trail b₂)
      (hs : WellFormed s) : WellFormed (b :: b₁ :: b₂ :: s)
  | four {b b₁ b₂ b₃ : ℕ} {s : List ℕ} (h : 0xF0 ≤ b ∧ b < 0xF5) (h₁ : Second b b₁) (h₂ : Trail b₂)
      (h₃ : Trail b₃) (hs : WellFormed s) : WellFormed (b :: b₁ :: b₂ :: b₃ :: s)

/-! ### Characters -/

theorem encode_one {c : ℕ} (h : c < 0x80) : encode c = [c] := if_pos h

theorem encode_two {b b₁ : ℕ} (h : 0xC2 ≤ b ∧ b < 0xE0) (h₁ : Second b b₁) :
    IsScalar ((b - 0xC0) * 64 + (b₁ - 0x80)) ∧
      encode ((b - 0xC0) * 64 + (b₁ - 0x80)) = [b, b₁] := by
  unfold Second at h₁
  rw [if_neg (by omega), if_neg (by omega), if_neg (by omega), if_neg (by omega)] at h₁
  obtain ⟨x, rfl⟩ := Nat.exists_eq_add_of_le (show 0xC0 ≤ b by omega)
  obtain ⟨y, rfl⟩ := Nat.exists_eq_add_of_le h₁.1
  rw [Nat.add_sub_cancel_left, Nat.add_sub_cancel_left]
  refine ⟨Or.inl (by omega), ?_⟩
  unfold encode
  rw [if_neg (by omega), if_pos (by omega)]
  congr 1
  · omega
  · congr 1
    omega

theorem encode_three {b b₁ b₂ : ℕ} (h : 0xE0 ≤ b ∧ b < 0xF0) (h₁ : Second b b₁) (h₂ : Trail b₂) :
    IsScalar (((b - 0xE0) * 64 + (b₁ - 0x80)) * 64 + (b₂ - 0x80)) ∧
      encode (((b - 0xE0) * 64 + (b₁ - 0x80)) * 64 + (b₂ - 0x80)) = [b, b₁, b₂] := by
  unfold Second at h₁
  rw [if_neg (show b ≠ 0xF0 by omega), if_neg (show b ≠ 0xF4 by omega)] at h₁
  unfold Trail at h₂
  have hlo : 0x80 ≤ b₁ ∧ b₁ < 0xC0 ∧ (b = 0xE0 → 0xA0 ≤ b₁) ∧ (b = 0xED → b₁ < 0xA0) := by
    split_ifs at h₁ <;> omega
  obtain ⟨x, rfl⟩ := Nat.exists_eq_add_of_le h.1
  obtain ⟨y, rfl⟩ := Nat.exists_eq_add_of_le hlo.1
  obtain ⟨z, rfl⟩ := Nat.exists_eq_add_of_le h₂.1
  rw [Nat.add_sub_cancel_left, Nat.add_sub_cancel_left, Nat.add_sub_cancel_left]
  unfold IsScalar encode
  refine ⟨by omega, ?_⟩
  rw [if_neg (by omega), if_neg (by omega), if_pos (by omega)]
  congr 1
  · omega
  · congr 1
    · omega
    · congr 1
      omega

theorem encode_four {b b₁ b₂ b₃ : ℕ} (h : 0xF0 ≤ b ∧ b < 0xF5) (h₁ : Second b b₁) (h₂ : Trail b₂)
    (h₃ : Trail b₃) :
    IsScalar ((((b - 0xF0) * 64 + (b₁ - 0x80)) * 64 + (b₂ - 0x80)) * 64 + (b₃ - 0x80)) ∧
      encode ((((b - 0xF0) * 64 + (b₁ - 0x80)) * 64 + (b₂ - 0x80)) * 64 + (b₃ - 0x80))
        = [b, b₁, b₂, b₃] := by
  unfold Second at h₁
  rw [if_neg (show b ≠ 0xE0 by omega), if_neg (show b ≠ 0xED by omega)] at h₁
  unfold Trail at h₂ h₃
  have hlo : 0x80 ≤ b₁ ∧ b₁ < 0xC0 ∧ (b = 0xF0 → 0x90 ≤ b₁) ∧ (b = 0xF4 → b₁ < 0x90) := by
    split_ifs at h₁ <;> omega
  obtain ⟨x, rfl⟩ := Nat.exists_eq_add_of_le h.1
  obtain ⟨y, rfl⟩ := Nat.exists_eq_add_of_le hlo.1
  obtain ⟨z, rfl⟩ := Nat.exists_eq_add_of_le h₂.1
  obtain ⟨t, rfl⟩ := Nat.exists_eq_add_of_le h₃.1
  rw [Nat.add_sub_cancel_left, Nat.add_sub_cancel_left, Nat.add_sub_cancel_left,
    Nat.add_sub_cancel_left]
  unfold IsScalar encode
  refine ⟨by omega, ?_⟩
  rw [if_neg (by omega), if_neg (by omega), if_neg (by omega)]
  congr 1
  · omega
  · congr 1
    · omega
    · congr 1
      · omega
      · congr 1
        omega

/-- The bytes `l` are one row of the table, and encode `c`. -/
inductive Encoded : ℕ → List ℕ → Prop
  | one {b : ℕ} (h : b < 0x80) : Encoded b [b]
  | two {b b₁ : ℕ} (h : 0xC2 ≤ b ∧ b < 0xE0) (h₁ : Second b b₁) :
      Encoded ((b - 0xC0) * 64 + (b₁ - 0x80)) [b, b₁]
  | three {b b₁ b₂ : ℕ} (h : 0xE0 ≤ b ∧ b < 0xF0) (h₁ : Second b b₁) (h₂ : Trail b₂) :
      Encoded (((b - 0xE0) * 64 + (b₁ - 0x80)) * 64 + (b₂ - 0x80)) [b, b₁, b₂]
  | four {b b₁ b₂ b₃ : ℕ} (h : 0xF0 ≤ b ∧ b < 0xF5) (h₁ : Second b b₁) (h₂ : Trail b₂)
      (h₃ : Trail b₃) :
      Encoded ((((b - 0xF0) * 64 + (b₁ - 0x80)) * 64 + (b₂ - 0x80)) * 64 + (b₃ - 0x80)) [b, b₁, b₂, b₃]

/-- What the table allows is the encoding of a scalar value. -/
theorem Encoded.scalar {c : ℕ} {l : List ℕ} (h : Encoded c l) : IsScalar c ∧ encode c = l := by
  cases h with
  | one h => exact ⟨Or.inl (by omega), encode_one h⟩
  | two h h₁ => exact encode_two h h₁
  | three h h₁ h₂ => exact encode_three h h₁ h₂
  | four h h₁ h₂ h₃ => exact encode_four h h₁ h₂ h₃

theorem trail_add (x : ℕ) : Trail (0x80 + x % 64) := by
  unfold Trail
  omega

/-- The encoding of a scalar value is what the table allows. -/
theorem Encoded.of_scalar {c : ℕ} (h : IsScalar c) : Encoded c (encode c) := by
  unfold IsScalar at h
  by_cases h1 : c < 0x80
  · rw [encode_one h1]
    exact .one h1
  by_cases h2 : c < 0x800
  · have hsecond : Second (0xC0 + c / 64) (0x80 + c % 64) := by
      unfold Second
      rw [if_neg (by omega), if_neg (by omega), if_neg (by omega), if_neg (by omega)]
      exact trail_add c
    have := Encoded.two (b := 0xC0 + c / 64) (by omega) hsecond
    rw [Nat.add_sub_cancel_left, Nat.add_sub_cancel_left, Nat.div_add_mod'] at this
    unfold encode
    rwa [if_neg h1, if_pos h2]
  by_cases h3 : c < 0x10000
  · have hsecond : Second (0xE0 + c / 4096) (0x80 + c / 64 % 64) := by
      unfold Second
      rw [if_neg (show 0xE0 + c / 4096 ≠ 0xF0 by omega), if_neg (show 0xE0 + c / 4096 ≠ 0xF4 by omega)]
      split_ifs <;> omega
    have := Encoded.three (b := 0xE0 + c / 4096) (by omega) hsecond (trail_add c)
    rw [Nat.add_sub_cancel_left, Nat.add_sub_cancel_left, Nat.add_sub_cancel_left,
      show (c / 4096 * 64 + c / 64 % 64) * 64 + c % 64 = c by omega] at this
    unfold encode
    rwa [if_neg h1, if_neg h2, if_pos h3]
  · have hsecond : Second (0xF0 + c / 262144) (0x80 + c / 4096 % 64) := by
      unfold Second
      rw [if_neg (show 0xF0 + c / 262144 ≠ 0xE0 by omega),
        if_neg (show 0xF0 + c / 262144 ≠ 0xED by omega)]
      split_ifs <;> omega
    have := Encoded.four (b := 0xF0 + c / 262144) (by omega) hsecond (trail_add (c / 64)) (trail_add c)
    rw [Nat.add_sub_cancel_left, Nat.add_sub_cancel_left, Nat.add_sub_cancel_left,
      Nat.add_sub_cancel_left,
      show ((c / 262144 * 64 + c / 4096 % 64) * 64 + c / 64 % 64) * 64 + c % 64 = c by omega] at this
    unfold encode
    rwa [if_neg h1, if_neg h2, if_neg h3]

theorem Encoded.eq_encode {c : ℕ} {l : List ℕ} (h : Encoded c l) : l = encode c := h.scalar.2.symm

/-- Encodings are not empty. -/
theorem encode_ne_nil (c : ℕ) : encode c ≠ [] := by
  unfold encode
  split_ifs <;> exact List.cons_ne_nil _ _

theorem length_encode_pos (c : ℕ) : 0 < (encode c).length := List.length_pos_iff.mpr (encode_ne_nil c)

/-- The bytes of an encoding are not `0` when the character is not. -/
theorem mem_encode {c b : ℕ} (h : IsScalar c) (hc : c ≠ 0) (hb : b ∈ encode c) : 0 < b ∧ b < 256 := by
  unfold IsScalar at h
  unfold encode at hb
  split_ifs at hb <;> simp only [List.mem_cons, List.not_mem_nil, or_false] at hb <;> omega

/-! ### Sequences -/

theorem WellFormed.cons {c : ℕ} {l s : List ℕ} (h : Encoded c l) (hs : WellFormed s) :
    WellFormed (l ++ s) := by
  cases h with
  | one h => exact .one h hs
  | two h h₁ => exact .two h h₁ hs
  | three h h₁ h₂ => exact .three h h₁ h₂ hs
  | four h h₁ h₂ h₃ => exact .four h h₁ h₂ h₃ hs

/-- **The well-formed sequences** are the encodings of scalar values. -/
theorem wellFormed_iff {s : List ℕ} :
    WellFormed s ↔ ∃ cs : List ℕ, (∀ c ∈ cs, IsScalar c) ∧ s = cs.flatMap encode := by
  constructor
  · intro h
    have hcons : ∀ {c : ℕ} {l s : List ℕ}, Encoded c l →
        (∃ cs : List ℕ, (∀ c ∈ cs, IsScalar c) ∧ s = cs.flatMap encode) →
        ∃ cs : List ℕ, (∀ c ∈ cs, IsScalar c) ∧ l ++ s = cs.flatMap encode := by
      rintro c l s hl ⟨cs, hcs, rfl⟩
      refine ⟨c :: cs, List.forall_mem_cons.mpr ⟨hl.scalar.1, hcs⟩, ?_⟩
      rw [List.flatMap_cons, hl.eq_encode]
    induction h with
    | nil => exact ⟨[], by simp, rfl⟩
    | one h _ ih => exact hcons (.one h) ih
    | two h h₁ _ ih => exact hcons (.two h h₁) ih
    | three h h₁ h₂ _ ih => exact hcons (.three h h₁ h₂) ih
    | four h h₁ h₂ h₃ _ ih => exact hcons (.four h h₁ h₂ h₃) ih
  · rintro ⟨cs, hcs, rfl⟩
    induction cs with
    | nil => exact .nil
    | cons c cs ih =>
      rw [List.flatMap_cons]
      exact .cons (.of_scalar (hcs c List.mem_cons_self)) (ih fun d hd => hcs d (List.mem_cons_of_mem _ hd))

end Utf8
