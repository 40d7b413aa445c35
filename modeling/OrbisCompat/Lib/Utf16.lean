import OrbisCompat.Lib.Utf8

/-!
# UTF-16

`encode c` is the UTF-16 encoding of a scalar value, in units as naturals.  `WellFormed` is what a sequence of units may be:
a unit that is no surrogate, or a high surrogate and a low one.  A sequence is well formed exactly when it is the encoding
of scalar values (`wellFormed_iff`).
-/

namespace Utf16

open Utf8 (IsScalar)

/-- A high surrogate, which is the first half of a pair. -/
def High (u : ℕ) : Prop := 0xD800 ≤ u ∧ u < 0xDC00

instance (u : ℕ) : Decidable (High u) := inferInstanceAs (Decidable (_ ∧ _))

/-- A low surrogate, which is the second half. -/
def Low (u : ℕ) : Prop := 0xDC00 ≤ u ∧ u < 0xE000

instance (u : ℕ) : Decidable (Low u) := inferInstanceAs (Decidable (_ ∧ _))

/-- The scalar value of a pair. -/
def ofPair (u v : ℕ) : ℕ := 0x10000 + (u - 0xD800) * 1024 + (v - 0xDC00)

/-- The encoding of a scalar value. -/
def encode (c : ℕ) : List ℕ := if c < 0x10000 then [c] else [0xD7C0 + c / 1024, 0xDC00 + c % 1024]

/-- The well-formed sequences, character by character. -/
inductive WellFormed : List ℕ → Prop
  | nil : WellFormed []
  | one {u : ℕ} {us : List ℕ} (hu : u < 0x10000) (hhigh : ¬High u) (hlow : ¬Low u) (hus : WellFormed us) :
      WellFormed (u :: us)
  | pair {u v : ℕ} {us : List ℕ} (hu : High u) (hv : Low v) (hus : WellFormed us) : WellFormed (u :: v :: us)

variable {c u v : ℕ} {us : List ℕ}

/-! ### Characters -/

theorem isScalar_of_unit (hu : u < 0x10000) (hhigh : ¬High u) (hlow : ¬Low u) : IsScalar u := by
  unfold High at hhigh
  unfold Low at hlow
  unfold IsScalar
  omega

theorem encode_one (h : c < 0x10000) : encode c = [c] := if_pos h

theorem encode_two (h : 0x10000 ≤ c) : encode c = [0xD7C0 + c / 1024, 0xDC00 + c % 1024] := if_neg (Nat.not_lt.mpr h)

/-- A pair encodes its scalar value. -/
theorem ofPair_spec (hu : High u) (hv : Low v) :
    IsScalar (ofPair u v) ∧ 0x10000 ≤ ofPair u v ∧ encode (ofPair u v) = [u, v] := by
  obtain ⟨x, rfl⟩ := Nat.exists_eq_add_of_le hu.1
  obtain ⟨y, rfl⟩ := Nat.exists_eq_add_of_le hv.1
  have hx := hu.2
  have hy := hv.2
  unfold ofPair
  rw [Nat.add_sub_cancel_left, Nat.add_sub_cancel_left]
  have hlarge : 0x10000 ≤ 0x10000 + x * 1024 + y := by omega
  refine ⟨Or.inr (by omega), hlarge, ?_⟩
  rw [encode_two hlarge]
  congr 1
  · omega
  · congr 1
    omega

/-- What encodes a scalar value above `0xFFFF` is a pair. -/
theorem pair_of_scalar (hc : IsScalar c) (h : 0x10000 ≤ c) : High (0xD7C0 + c / 1024) ∧ Low (0xDC00 + c % 1024) := by
  unfold IsScalar at hc
  unfold High Low
  omega

theorem ofPair_encode (h : 0x10000 ≤ c) : ofPair (0xD7C0 + c / 1024) (0xDC00 + c % 1024) = c := by
  unfold ofPair
  omega

/-! ### Sequences -/

theorem WellFormed.encode_append (hc : IsScalar c) (h : WellFormed us) : WellFormed (encode c ++ us) := by
  by_cases hlarge : 0x10000 ≤ c
  · obtain ⟨hhigh, hlow⟩ := pair_of_scalar hc hlarge
    rw [encode_two hlarge]
    exact .pair hhigh hlow h
  · rw [encode_one (Nat.not_le.mp hlarge)]
    unfold IsScalar at hc
    exact .one (Nat.not_le.mp hlarge) (by unfold High; omega) (by unfold Low; omega) h

/-- **Well formed** is what encodes scalar values. -/
theorem wellFormed_iff : WellFormed us ↔ ∃ cs : List ℕ, (∀ c ∈ cs, IsScalar c) ∧ us = cs.flatMap encode := by
  constructor
  · intro h
    induction h with
    | nil => exact ⟨[], by simp, rfl⟩
    | @one u us hu hhigh hlow _ ih =>
      obtain ⟨cs, hcs, rfl⟩ := ih
      refine ⟨u :: cs, List.forall_mem_cons.mpr ⟨isScalar_of_unit hu hhigh hlow, hcs⟩, ?_⟩
      rw [List.flatMap_cons, encode_one hu, List.singleton_append]
    | @pair u v us hu hv _ ih =>
      obtain ⟨cs, hcs, rfl⟩ := ih
      obtain ⟨hscalar, -, hencode⟩ := ofPair_spec hu hv
      refine ⟨ofPair u v :: cs, List.forall_mem_cons.mpr ⟨hscalar, hcs⟩, ?_⟩
      rw [List.flatMap_cons, hencode]
      rfl
  · rintro ⟨cs, hcs, rfl⟩
    induction cs with
    | nil => exact .nil
    | cons c cs ih =>
      rw [List.forall_mem_cons] at hcs
      exact .encode_append hcs.1 (ih hcs.2)

end Utf16
