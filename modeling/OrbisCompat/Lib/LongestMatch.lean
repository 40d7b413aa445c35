import Mathlib.Data.List.Infix
import Mathlib.Data.List.Basic

/-!
# The longest prefix in a language

A parser that takes the longest prefix of its input which belongs to a language looks at no more than that: what comes after an
element that no word of the language has changes nothing (`longest_append_cons`).
-/

namespace LongestMatch

variable {α : Type*} {L : List α → Bool} {s w a b : List α} {c : α}

/-- `w` is the longest prefix of `s` in the language. -/
structure IsLongest (L : List α → Bool) (s w : List α) : Prop where
  mem : L w = true
  isPrefix : w <+: s
  length_le : ∀ v, v <+: s → L v = true → v.length ≤ w.length

theorem IsLongest.unique {w' : List α} (h : IsLongest L s w) (h' : IsLongest L s w') : w = w' := by
  have hlen : w.length = w'.length :=
    Nat.le_antisymm (h'.length_le w h.isPrefix h.mem) (h.length_le w' h'.isPrefix h'.mem)
  exact (List.prefix_of_prefix_length_le h.isPrefix h'.isPrefix hlen.le).eq_of_length hlen

/-- The longest prefix of `s` in the language. -/
def longest (L : List α → Bool) (s : List α) : Option (List α) := (s.inits.filter L).getLast?

/-- There is none when no prefix belongs to the language. -/
theorem longest_eq_none_iff : longest L s = none ↔ ∀ v, v <+: s → L v = false := by
  rw [longest, List.getLast?_eq_none_iff, List.filter_eq_nil_iff]
  simp only [List.mem_inits, Bool.not_eq_true]

/-- The prefixes come by their lengths. -/
theorem pairwise_length_inits (s : List α) : s.inits.Pairwise fun v w => v.length < w.length := by
  rw [List.pairwise_iff_getElem]
  intro i j hi hj hij
  rw [List.length_inits] at hj
  rw [List.getElem_inits, List.getElem_inits, List.length_take, List.length_take]
  omega

theorem isLongest_of_longest (h : longest L s = some w) : IsLongest L s w := by
  obtain ⟨hmem, hL⟩ := List.mem_filter.mp (List.mem_of_getLast? h)
  refine ⟨hL, (List.mem_inits w s).mp hmem, fun v hv hLv => ?_⟩
  have hsorted := (pairwise_length_inits s).filter L
  have hvmem : v ∈ s.inits.filter L := List.mem_filter.mpr ⟨(List.mem_inits v s).mpr hv, hLv⟩
  obtain ⟨vs, hvs⟩ := List.getLast?_eq_some_iff.mp h
  rw [hvs, List.mem_append, List.mem_singleton] at hvmem
  rw [hvs, List.pairwise_append] at hsorted
  obtain hvmem | rfl := hvmem
  · exact (hsorted.2.2 v hvmem w (List.mem_singleton_self w)).le
  · exact le_rfl

theorem longest_eq_some_iff : longest L s = some w ↔ IsLongest L s w := by
  refine ⟨isLongest_of_longest, fun h => ?_⟩
  cases hl : longest L s with
  | none =>
    have hfalse := longest_eq_none_iff.mp hl w h.isPrefix
    rw [h.mem] at hfalse
    cases hfalse
  | some w' => rw [h.unique (isLongest_of_longest hl)]

/-- **What follows an element that no word has** changes nothing. -/
theorem longest_append_cons (hc : ∀ w, L w = true → c ∉ w) : longest L (a ++ c :: b) = longest L a := by
  have hrest : ((c :: b).inits.tail.map fun v => a ++ v).filter L = [] := by
    rw [List.filter_eq_nil_iff]
    intro v hv hL
    obtain ⟨v, hmem, rfl⟩ := List.mem_map.mp hv
    rw [List.inits_cons, List.tail_cons] at hmem
    obtain ⟨v, -, rfl⟩ := List.mem_map.mp hmem
    exact hc _ hL (List.mem_append_right a List.mem_cons_self)
  rw [longest, longest, List.inits_append, List.filter_append, hrest, List.append_nil]

end LongestMatch
