import Mathlib.Logic.Basic

/-!
# Postconditions of computations that may fail

`Post E P` says of a computation in `Except` that its result satisfies `P`, or else its error `E`.  A sequence of
computations is taken apart with `Post.bind`, so that a fact about a long one is shown step by step.
-/

namespace Fallible

variable {ε α β : Type} {E : ε → Prop} {P : α → Prop} {Q : β → Prop} {r : Except ε α}

/-- The error satisfies `E`, the result `P`. -/
def Post (E : ε → Prop) (P : α → Prop) : Except ε α → Prop
  | .error e => E e
  | .ok a => P a

theorem Post.bind {f : α → Except ε β} (h : Post E P r) (hf : ∀ a, P a → Post E Q (f a)) :
    Post E Q (r >>= f) := by
  cases r with
  | error e => exact h
  | ok a => exact hf a h

theorem Post.of_ok {a : α} (h : Post E P r) (hr : r = .ok a) : P a := by
  subst hr
  exact h

theorem Post.of_error {e : ε} (h : Post E P r) (hr : r = .error e) : E e := by
  subst hr
  exact h

/-- Nothing is said. -/
theorem post_true (r : Except ε α) : Post (fun _ => True) (fun _ => True) r := by
  cases r <;> trivial

/-- The result is what it is. -/
theorem post_eq (r : Except ε α) : Post (fun _ => True) (r = .ok ·) r := by
  cases r with
  | error e => trivial
  | ok a => exact rfl

end Fallible
