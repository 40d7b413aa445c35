import Mathlib.Tactic.Common
import OrbisCompat.CxaGuard.Basic

/-!
# The owner table

`Distinct o` says that no guard is in the table twice.  It is kept by `owner_set` of a guard that is not
in the table and by `owner_clear`; and with it, the first entry of a guard that the loops find is the
only one.
-/

namespace OrbisCompat.CxaGuard

namespace Owners

variable {o : Owners} {g : Guard} {a : ℕ}

/-- No guard is in the table twice. -/
def Distinct (o : Owners) : Prop := ∀ i j g, (o i).guard = some g → (o j).guard = some g → i = j

theorem of_first {p : Entry → Bool} {i : Fin owners} (h : o.first p = some i) : p (o i) = true :=
  @List.find?_some _ (fun i => p (o i)) _ _ h

theorem of_first_none {p : Entry → Bool} (h : o.first p = none) (i : Fin owners) : p (o i) = false := by
  have hnone := List.find?_eq_none.mp h i (List.mem_finRange i)
  simpa using hnone

theorem set_apply (i j : Fin owners) (e : Entry) : o.set i e j = if j = i then e else o j := rfl

/-- `owner_set` fills a free entry, or none. -/
theorem ownerSet_apply (o : Owners) (g : Guard) (a : ℕ) (i : Fin owners) :
    o.ownerSet g a i = o i ∨ (o i).guard = none ∧ o.ownerSet g a i = ⟨some g, a⟩ := by
  unfold ownerSet
  cases hfirst : o.first fun e => e.guard.isNone with
  | some j =>
    dsimp only
    rw [set_apply]
    split_ifs with hij
    · subst hij
      exact Or.inr ⟨by simpa using of_first hfirst, rfl⟩
    · exact Or.inl rfl
  | none => exact Or.inl rfl

/-- `owner_set` fills one entry at most. -/
theorem distinct_ownerSet (h : o.Distinct) (hg : ∀ i, (o i).guard ≠ some g) :
    (o.ownerSet g a).Distinct := by
  unfold ownerSet
  cases o.first fun e => e.guard.isNone with
  | none => exact h
  | some k =>
    intro i j g' hi hj
    dsimp only at hi hj
    rw [set_apply] at hi hj
    split_ifs at hi hj with hik hjk hjk
    · rw [hik, hjk]
    · -- the new entry's guard is not among the others
      rw [← hi] at hj
      exact absurd hj (hg j)
    · rw [← hj] at hi
      exact absurd hi (hg i)
    · exact h i j g' hi hj

/-- `owner_clear` clears the entry of the guard. -/
theorem ownerClear_apply (h : o.Distinct) (i : Fin owners) :
    o.ownerClear g i = if (o i).guard = some g then ⟨none, 0⟩ else o i := by
  unfold ownerClear
  cases hfirst : o.first fun e => e.guard == some g with
  | some j =>
    have hguard : (o j).guard = some g := by simpa using of_first hfirst
    dsimp only
    rw [set_apply]
    by_cases hij : i = j
    · subst hij
      rw [if_pos rfl, if_pos hguard]
    · rw [if_neg hij, if_neg fun hi => hij (h i j g hi hguard)]
  | none =>
    have hi := of_first_none hfirst i
    rw [if_neg (by simpa using hi)]

theorem distinct_ownerClear (h : o.Distinct) : (o.ownerClear g).Distinct := by
  intro i j g' hi hj
  rw [ownerClear_apply h] at hi hj
  split_ifs at hi hj
  exact h i j g' hi hj

/-- What `owner_is_self` answers for a guard in the table. -/
theorem ownerIsSelf_eq (h : o.Distinct) {i : Fin owners} (hi : (o i).guard = some g) (hself : a ≠ 0) :
    o.ownerIsSelf g a = ((o i).owner == a) := by
  unfold ownerIsSelf
  rw [if_neg hself]
  cases hfirst : o.first fun e => e.guard == some g with
  | some j =>
    have hguard : (o j).guard = some g := by simpa using of_first hfirst
    dsimp only
    rw [h j i g hguard hi]
  | none =>
    have hnone := of_first_none hfirst i
    simp [hi] at hnone

/-- `owner_is_self` answers yes only for a recorded owner. -/
theorem exists_of_ownerIsSelf (h : o.ownerIsSelf g a = true) :
    ∃ i, (o i).guard = some g ∧ (o i).owner = a := by
  unfold ownerIsSelf at h
  split_ifs at h
  cases hfirst : o.first fun e => e.guard == some g with
  | some i =>
    rw [hfirst] at h
    exact ⟨i, by simpa using of_first hfirst, by simpa using h⟩
  | none =>
    rw [hfirst] at h
    cases h

end Owners

end OrbisCompat.CxaGuard
