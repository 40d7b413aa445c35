import Mathlib.Data.List.Nodup
import Mathlib.Data.List.Perm.Basic

/-!
# Allocated nodes and singly linked lists of them

`NodeHeap α` is the list of the nodes that are allocated, each with its address.  `Holds h ns` says that
`ns` are those nodes, in any order and with distinct addresses; allocating and freeing a node adds it to
and takes it from `ns` (`Holds.alloc`, `Holds.free`), and reading one gives its contents (`Holds.read`).

`Linked next p ns` says that `ns` is the linked list that starts at the pointer `p`, with the pointer
`0` at its end.
-/

/-- The nodes that are allocated. -/
abbrev NodeHeap (α : Type*) := List (ℕ × α)

namespace NodeHeap

variable {α : Type*} {h : NodeHeap α} {ns ns' : List (ℕ × α)} {p : ℕ} {x : α}

/-- `*p`. -/
def read (h : NodeHeap α) (p : ℕ) : Option α := h.lookup p

/-- `free(p)`. -/
def free (h : NodeHeap α) (p : ℕ) : NodeHeap α := h.eraseP fun n => n.1 == p

/-- The allocated nodes are `ns`. -/
structure Holds (h : NodeHeap α) (ns : List (ℕ × α)) : Prop where
  perm : h.Perm ns
  nodup : (ns.map Prod.fst).Nodup

/-- `ns` is the linked list at `p`. -/
def Linked (next : α → ℕ) : ℕ → List (ℕ × α) → Prop
  | p, [] => p = 0
  | p, n :: ns => p = n.1 ∧ p ≠ 0 ∧ Linked next (next n.2) ns

theorem Linked.eq_nil {next : α → ℕ} (h : Linked next 0 ns) : ns = [] := by
  cases ns with
  | nil => rfl
  | cons n ns => exact absurd rfl h.2.1

theorem lookup_eq_some {l : List (ℕ × α)} (hl : (l.map Prod.fst).Nodup) (hmem : (p, x) ∈ l) :
    l.lookup p = some x := by
  induction l with
  | nil => cases hmem
  | cons n l ih =>
    obtain ⟨hn, hl⟩ := List.nodup_cons.mp hl
    rcases List.mem_cons.mp hmem with rfl | hmem
    · exact List.lookup_cons_self
    · have hne : (p == n.1) = false := by
        rw [beq_eq_false_iff_ne]
        rintro rfl
        exact hn (List.mem_map.mpr ⟨_, hmem, rfl⟩)
      rw [List.lookup_cons, hne]
      exact ih hl hmem

/-- Freeing what was allocated last. -/
@[simp] theorem free_cons (h : NodeHeap α) (p : ℕ) (x : α) : free ((p, x) :: h) p = h :=
  List.eraseP_cons_of_pos (beq_self_eq_true p)

theorem perm_free {l : List (ℕ × α)} (hl : (l.map Prod.fst).Nodup) (hmem : (p, x) ∈ l) :
    l.Perm ((p, x) :: free l p) := by
  induction l with
  | nil => cases hmem
  | cons n l ih =>
    obtain ⟨hn, hl⟩ := List.nodup_cons.mp hl
    rcases List.mem_cons.mp hmem with rfl | hmem
    · rw [free_cons]
    · have hne : ¬ (n.1 == p) = true := by
        rw [beq_iff_eq]
        rintro rfl
        exact hn (List.mem_map.mpr ⟨_, hmem, rfl⟩)
      have hfree : free (n :: l) p = n :: free l p := List.eraseP_cons_of_neg hne
      rw [hfree]
      exact ((ih hl hmem).cons n).trans (List.Perm.swap _ _ _)

namespace Holds

theorem nodup_heap (hh : Holds h ns) : (h.map Prod.fst).Nodup :=
  (hh.perm.map Prod.fst).nodup_iff.mpr hh.nodup

theorem of_perm (hh : Holds h ns) (hp : ns.Perm ns') : Holds h ns' :=
  ⟨hh.perm.trans hp, (hp.map Prod.fst).nodup_iff.mp hh.nodup⟩

theorem nil : Holds ([] : NodeHeap α) [] := ⟨.nil, List.nodup_nil⟩

theorem length_eq (hh : Holds h ns) : h.length = ns.length := hh.perm.length_eq

theorem eq_nil (hh : Holds h []) : h = [] := hh.perm.eq_nil

theorem read (hh : Holds h ns) (hmem : (p, x) ∈ ns) : NodeHeap.read h p = some x :=
  lookup_eq_some hh.nodup_heap (hh.perm.mem_iff.mpr hmem)

theorem alloc (hh : Holds h ns) (hp : p ∉ h.map Prod.fst) : Holds ((p, x) :: h) ((p, x) :: ns) where
  perm := hh.perm.cons _
  nodup := List.nodup_cons.mpr ⟨fun hmem => hp ((hh.perm.map Prod.fst).mem_iff.mpr hmem), hh.nodup⟩

theorem free (hh : Holds h (ns ++ (p, x) :: ns')) : Holds (NodeHeap.free h p) (ns ++ ns') := by
  have hfront : Holds h ((p, x) :: (ns ++ ns')) := hh.of_perm List.perm_middle
  have hmem : (p, x) ∈ h := hfront.perm.mem_iff.mpr List.mem_cons_self
  constructor
  · exact ((perm_free hh.nodup_heap hmem).symm.trans hfront.perm).cons_inv
  · exact (List.nodup_cons.mp hfront.nodup).2

end Holds

end NodeHeap
