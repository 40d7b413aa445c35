import Mathlib.Data.List.Basic
import Mathlib.Logic.Function.Basic
import Mathlib.Order.Nat

/-!
# A sink with room for so many elements

An array that takes a sequence element by element from its start, and drops what it has no room for, holds the
`image` of the sequence.  So a writer that counts what it drops can be described by the sequence alone.

`justify` fills a text up to a width, on the one side or on the other.
-/

namespace Sink

variable {α : Type*}

/-- What the array `s`, with room for `cap` elements, holds after `cs` was put into it. -/
def image (s : ℕ → α) (cap : ℕ) (cs : List α) : ℕ → α := fun i =>
  if i < cap then (cs[i]?).getD (s i) else s i

variable {s : ℕ → α} {cap i : ℕ} {cs : List α} {c : α}

@[simp]
theorem image_nil : image s cap [] = s := by
  funext i
  simp [image]

theorem image_getElem (hi : i < cs.length) (hcap : i < cap) : image s cap cs i = cs[i] := by
  simp [image, hcap, hi]

/-- The array is left alone where the sequence, or the room, has ended. -/
theorem image_frame (h : cap ≤ i ∨ cs.length ≤ i) : image s cap cs i = s i := by
  unfold image
  split_ifs with hcap
  · have hlen : cs.length ≤ i := by omega
    rw [List.getElem?_eq_none hlen]
    rfl
  · rfl

/-- One more element, where there is room. -/
theorem image_concat_of_lt (h : cs.length < cap) :
    image s cap (cs ++ [c]) = Function.update (image s cap cs) cs.length c := by
  funext i
  rcases lt_trichotomy i cs.length with hi | rfl | hi
  · rw [Function.update_of_ne (by omega), image_getElem hi (by omega),
      image_getElem (by simp only [List.length_append]; omega) (by omega), List.getElem_append_left hi]
  · rw [Function.update_self, image_getElem (by simp) h]
    simp
  · rw [Function.update_of_ne (by omega), image_frame (.inr hi.le), image_frame]
    exact .inr (by simp only [List.length_append, List.length_singleton]; omega)

/-- One more element, where there is none. -/
theorem image_concat_of_ge (h : cap ≤ cs.length) : image s cap (cs ++ [c]) = image s cap cs := by
  funext i
  by_cases hi : i < cap
  · have hlen : i < cs.length := by omega
    rw [image_getElem hlen hi, image_getElem (by simp only [List.length_append]; omega) hi,
      List.getElem_append_left hlen]
  · rw [image_frame (.inl (by omega)), image_frame (.inl (by omega))]

/-! ### Widths -/

/-- `cs`, filled up with `x` to `w` elements: behind it when it stands on the left. -/
def justify (x : α) (left : Bool) (w : ℕ) (cs : List α) : List α :=
  if left then cs ++ List.replicate (w - cs.length) x else List.replicate (w - cs.length) x ++ cs

@[simp]
theorem length_justify (x : α) (left : Bool) (w : ℕ) (cs : List α) :
    (justify x left w cs).length = max w cs.length := by
  cases left <;> simp only [justify, if_true, Bool.false_eq_true, if_false, List.length_append,
    List.length_replicate] <;> omega

end Sink
