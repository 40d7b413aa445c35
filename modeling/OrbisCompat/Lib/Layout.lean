import OrbisCompat.Lib.FlatMem
import Mathlib.Data.List.Nodup

/-!
# Records in memory

A `Layout` says where the fields of a record are, and that they do not overlap.  What is assigned to a field is read from it, and
every other field keeps its value.  A record is at address 0.
-/

/-- The layout of a record with the fields `F`. -/
structure Layout (F : Type*) where
  offset : F → ℕ
  width : F → ℕ
  size : ℕ
  within : ∀ f, offset f + width f ≤ size
  disjoint : ∀ f g, f ≠ g → offset f + width f ≤ offset g ∨ offset g + width g ≤ offset f

namespace Layout

variable {F : Type*} (L : Layout F)

/-- The value of a field. -/
def get (m : FlatMem) (f : F) : ℕ := FlatMem.load m (L.offset f) (L.width f)

/-- The record after an assignment to a field. -/
def set (m : FlatMem) (f : F) (v : ℕ) : FlatMem := FlatMem.store m (L.offset f) (FlatMem.bytesLE (L.width f) v)

/-- The record after one assignment after the other. -/
def setAll : FlatMem → List (F × ℕ) → FlatMem
  | m, [] => m
  | m, (f, v) :: vs => setAll (L.set m f v) vs

variable {L} {m : FlatMem} {f g : F} {a v x : ℕ} {bs : List UInt8} {vs : List (F × ℕ)}

theorem get_set_self (m : FlatMem) (f : F) (v : ℕ) : L.get (L.set m f v) f = v % 256 ^ L.width f := by
  have h := FlatMem.load_store m (L.offset f) (FlatMem.bytesLE (L.width f) v)
  rwa [FlatMem.length_bytesLE, FlatMem.valueLE_bytesLE] at h

/-- A store outside of a field. -/
theorem get_store_of_disjoint (h : L.offset f + L.width f ≤ a ∨ a + bs.length ≤ L.offset f) :
    L.get (FlatMem.store m a bs) f = L.get m f := by
  apply FlatMem.load_congr
  intro x hx hx'
  exact FlatMem.store_of_not_mem (by omega)

theorem get_set_of_ne (h : f ≠ g) : L.get (L.set m g v) f = L.get m f := by
  apply get_store_of_disjoint
  rw [FlatMem.length_bytesLE]
  exact L.disjoint f g h

theorem set_frame (h : L.size ≤ x) : L.set m f v x = m x := by
  have hle := L.within f
  apply FlatMem.store_of_not_mem
  rw [FlatMem.length_bytesLE]
  omega

theorem get_setAll_of_not_mem (h : f ∉ vs.map Prod.fst) : L.get (L.setAll m vs) f = L.get m f := by
  induction vs generalizing m with
  | nil => rfl
  | cons p vs ih =>
    obtain ⟨g, v⟩ := p
    rw [List.map_cons, List.mem_cons, not_or] at h
    rw [setAll, ih h.2, get_set_of_ne h.1]

/-- **Assignments to different fields** are all read back. -/
theorem get_setAll (hnodup : (vs.map Prod.fst).Nodup) (hmem : (f, v) ∈ vs) :
    L.get (L.setAll m vs) f = v % 256 ^ L.width f := by
  induction vs generalizing m with
  | nil => cases hmem
  | cons p vs ih =>
    obtain ⟨g, w⟩ := p
    rw [List.map_cons, List.nodup_cons] at hnodup
    rw [setAll]
    obtain heq | hmem := List.mem_cons.mp hmem
    · obtain ⟨rfl, rfl⟩ := Prod.mk.inj heq
      rw [get_setAll_of_not_mem hnodup.1, get_set_self]
    · exact ih hnodup.2 hmem

theorem setAll_frame (h : L.size ≤ x) : L.setAll m vs x = m x := by
  induction vs generalizing m with
  | nil => rfl
  | cons p vs ih => rw [setAll, ih, set_frame h]

end Layout
