import Mathlib.Data.List.TakeWhile

/-!
# Arrays of a fixed size, and the strings in them

An array is the list of its elements.  A store behind its end has no result, so a run that has one stays inside.  A string
starts at the front of an array, and ends at the first terminator.
-/

namespace Buffer

variable {α : Type*}

/-- `b[i] = v`. -/
def store (b : List α) (i : ℕ) (v : α) : Option (List α) := if i < b.length then some (b.set i v) else none

/-- The stores of `vs` from `b[i]` on. -/
def storeFrom (b : List α) (i : ℕ) : List α → Option (List α)
  | [] => some b
  | v :: vs => do
    let b ← store b i v
    storeFrom b (i + 1) vs

/-- The string in an array; `none` when nothing terminates it. -/
def cstr [DecidableEq α] (z : α) (b : List α) : Option (List α) :=
  if z ∈ b then some (b.takeWhile (· ≠ z)) else none

variable {b vs : List α} {i : ℕ} {v z : α}

theorem store_eq (h : i < b.length) : store b i v = some (b.take i ++ v :: b.drop (i + 1)) := by
  rw [store, if_pos h, List.set_eq_take_append_cons_drop, if_pos h]

/-- A store behind what is known of the array. -/
theorem store_append (cs : List α) (x v : α) (b : List α) : store (cs ++ x :: b) cs.length v = some (cs ++ v :: b) := by
  have hlt : cs.length < (cs ++ x :: b).length := by
    rw [List.length_append, List.length_cons]
    omega
  rw [store_eq hlt, List.take_left, List.drop_append, List.drop_of_length_le (Nat.le_succ _), Nat.add_sub_cancel_left]
  rfl

/-- What is stored stands between what was in front of it and behind it. -/
theorem storeFrom_eq (h : i + vs.length ≤ b.length) :
    storeFrom b i vs = some (b.take i ++ (vs ++ b.drop (i + vs.length))) := by
  induction vs generalizing b i with
  | nil => rw [storeFrom, List.nil_append, List.length_nil, Nat.add_zero, List.take_append_drop]
  | cons v vs ih =>
    rw [List.length_cons] at h ⊢
    have hi : i < b.length := by omega
    have hlen : (b.take i).length = i := List.length_take_of_le (Nat.le_of_lt hi)
    have hfit : i + 1 + vs.length ≤ (b.take i ++ v :: b.drop (i + 1)).length := by
      rw [List.length_append, hlen, List.length_cons, List.length_drop]
      omega
    rw [storeFrom, store_eq hi, Option.bind_eq_bind, Option.bind_some, ih hfit]
    have htake : (b.take i ++ v :: b.drop (i + 1)).take (i + 1) = b.take i ++ [v] := by
      rw [List.take_append, List.take_of_length_le (by omega), hlen, Nat.add_sub_cancel_left, List.take_succ_cons,
        List.take_zero]
    have hdrop : (b.take i ++ v :: b.drop (i + 1)).drop (i + 1 + vs.length) = b.drop (i + (vs.length + 1)) := by
      rw [List.drop_append, List.drop_of_length_le (by omega), hlen, List.nil_append,
        show i + 1 + vs.length - i = vs.length + 1 by omega, List.drop_succ_cons, List.drop_drop,
        show i + 1 + vs.length = i + (vs.length + 1) by omega]
    rw [htake, hdrop, List.append_assoc, List.singleton_append, List.cons_append]

/-- The stores behind what is known of the array. -/
theorem storeFrom_append (cs : List α) (h : vs.length ≤ b.length) :
    storeFrom (cs ++ b) cs.length vs = some (cs ++ (vs ++ b.drop vs.length)) := by
  have hfit : cs.length + vs.length ≤ (cs ++ b).length := by
    rw [List.length_append]
    exact Nat.add_le_add_left h _
  rw [storeFrom_eq hfit, List.take_left, List.drop_length_add_append]

/-- The stores from the front. -/
theorem storeFrom_zero (h : vs.length ≤ b.length) : storeFrom b 0 vs = some (vs ++ b.drop vs.length) := by
  rw [storeFrom_eq (by omega), List.take_zero, List.nil_append, Nat.zero_add]

theorem storeFrom_singleton (b : List α) (i : ℕ) (v : α) : storeFrom b i [v] = store b i v := by
  rw [storeFrom, Option.bind_eq_bind]
  cases store b i v <;> rfl

/-- One list of stores after the other. -/
theorem storeFrom_append_right (b us vs : List α) (i : ℕ) :
    storeFrom b i (us ++ vs) = (storeFrom b i us).bind fun b => storeFrom b (i + us.length) vs := by
  induction us generalizing b i with
  | nil => rfl
  | cons u us ih =>
    rw [List.cons_append, storeFrom, storeFrom, Option.bind_eq_bind]
    cases store b i u with
    | none => rfl
    | some b =>
      rw [Option.bind_some, Option.bind_some, ih, List.length_cons, Nat.add_right_comm, Nat.add_assoc]

theorem store_eq_none (h : b.length ≤ i) : store b i v = none := if_neg (Nat.not_lt.mpr h)

/-- Stores that go behind the end. -/
theorem storeFrom_eq_none (hi : i ≤ b.length) (h : b.length < i + vs.length) : storeFrom b i vs = none := by
  induction vs generalizing b i with
  | nil => exact absurd h (by rw [List.length_nil]; omega)
  | cons v vs ih =>
    rw [List.length_cons] at h
    rw [storeFrom, Option.bind_eq_bind]
    rcases Nat.lt_or_eq_of_le hi with hlt | rfl
    · rw [store, if_pos hlt, Option.bind_some]
      exact ih (by rw [List.length_set]; omega) (by rw [List.length_set]; omega)
    · rw [store_eq_none le_rfl]
      rfl

/-- Behind a terminator nothing counts. -/
theorem takeWhile_append_of_mem [DecidableEq α] {cs : List α} (h : z ∈ cs) (b : List α) :
    (cs ++ b).takeWhile (· ≠ z) = cs.takeWhile (· ≠ z) := by
  rw [List.takeWhile_append, if_neg]
  intro hall
  have hne := List.takeWhile_eq_self_iff.mp ((List.takeWhile_prefix _).eq_of_length hall) z h
  simp at hne

/-- A string ends at the first terminator. -/
theorem takeWhile_terminated [DecidableEq α] (cs : List α) (z : α) (b : List α) :
    (cs ++ z :: b).takeWhile (· ≠ z) = cs.takeWhile (· ≠ z) := by
  rw [List.append_cons, takeWhile_append_of_mem (List.mem_append_right cs (List.mem_singleton_self z)), List.takeWhile_append]
  split_ifs with hall
  · rw [List.takeWhile_cons_of_neg (by simp), List.append_nil]
    exact ((List.takeWhile_prefix _).eq_of_length hall).symm
  · rfl

theorem cstr_terminated [DecidableEq α] (cs : List α) (z : α) (b : List α) :
    cstr z (cs ++ z :: b) = some (cs.takeWhile (· ≠ z)) := by
  rw [cstr, if_pos (List.mem_append_right cs List.mem_cons_self), takeWhile_terminated]

theorem forall_ne [DecidableEq α] {cs : List α} (h : z ∉ cs) : ∀ c ∈ cs, decide (c ≠ z) = true := by
  intro c hc
  rw [decide_eq_true_eq]
  rintro rfl
  exact h hc

theorem takeWhile_eq_self [DecidableEq α] {cs : List α} (h : z ∉ cs) : cs.takeWhile (· ≠ z) = cs :=
  List.takeWhile_eq_self_iff.mpr (forall_ne h)

theorem cstr_append [DecidableEq α] {cs : List α} (h : z ∉ cs) : cstr z (cs ++ z :: b) = some cs := by
  rw [cstr_terminated, takeWhile_eq_self h]

/-- What stands in front of a string, without a terminator, is a part of it. -/
theorem cstr_append_left [DecidableEq α] {cs : List α} (h : z ∉ cs) (b : List α) :
    cstr z (cs ++ b) = (cstr z b).map (cs ++ ·) := by
  have hmem : z ∈ cs ++ b ↔ z ∈ b := by rw [List.mem_append, or_iff_right h]
  unfold cstr
  rw [List.takeWhile_append_of_pos (forall_ne h)]
  by_cases hb : z ∈ b
  · rw [if_pos (hmem.mpr hb), if_pos hb, Option.map_some]
  · rw [if_neg (mt hmem.mp hb), if_neg hb, Option.map_none]

end Buffer
