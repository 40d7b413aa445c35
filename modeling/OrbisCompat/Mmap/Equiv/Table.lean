import Mathlib.Data.List.Pairwise
import OrbisCompat.Mmap.Equiv.Carve
import OrbisCompat.Mmap.System

/-!
# The table of carve-outs

`Table cs live` is the invariant of the interposer: the carve-outs are well formed and apart from
each other, and the blocks in use are the live mappings.  The calls change the table in two ways:
one carve-out is rewritten in place (`Table.modify`) and a new one is added (`Table.push`).
-/

namespace OrbisCompat.Mmap

open Extent Tile

/-- **The invariant.** -/
structure Table (cs : List Carve) (live : List Mapping) : Prop where
  good : ∀ c ∈ cs, GoodCarve c
  apart : cs.Pairwise fun c d => Apart c.extent d.extent
  used : (cs.flatMap Carve.usedExtents).Perm (live.map Mapping.extent)

/-- The invariant of a world. -/
def World.Ok (w : World) : Prop := Table w.st.carveList w.live

theorem alignUp_page (n : ℕ) : alignUp n Page = (n + 16383) % 2 ^ 64 / 16384 * 16384 :=
  Word64.alignUp_two_pow (k := 14) (by norm_num)

theorem page_dvd_alignUp (n : ℕ) : Page ∣ alignUp n Page := by
  rw [alignUp_page]; exact Nat.dvd_mul_left _ _

/-- The largest length whose pages do not wrap. -/
def maxLen : ℕ := 2 ^ 64 - Page

/-- Exactly the lengths from `1` to `maxLen` come to at least one page. -/
theorem alignUp_page_pos {n : ℕ} (h : n < 2 ^ 64) : 0 < alignUp n Page ↔ 1 ≤ n ∧ n ≤ maxLen := by
  rw [alignUp_page]
  unfold maxLen Page
  constructor <;> intro _ <;> omega

theorem le_alignUp_page {n : ℕ} (h : n ≤ maxLen) : n ≤ alignUp n Page := by
  rw [alignUp_page]
  unfold maxLen Page at h
  omega

/-- A block in use lies inside its carve-out, on page boundaries. -/
theorem GoodCarve.usedExtent {c : Carve} (h : GoodCarve c) {e : Extent}
    (he : e ∈ c.usedExtents) : Within e c.extent ∧ Page ∣ e.start ∧ 0 < e.len := by
  obtain ⟨b, hb, rfl⟩ := List.mem_map.mp he
  have hb := List.mem_of_mem_filter hb
  obtain ⟨hle, -⟩ := h.block_le hb
  refine ⟨⟨Nat.le_add_right _ _, ?_⟩, dvd_add h.va_dvd (h.tiling.off_dvd (dvd_zero _) hb),
    (h.tiling.sizes b hb).1⟩
  show c.va + b.off + b.size ≤ c.va + c.size
  omega

/-- Blocks in use of one carve-out do not overlap. -/
theorem GoodCarve.pairwise {c : Carve} (h : GoodCarve c) : c.usedExtents.Pairwise Apart := by
  refine List.pairwise_map.mpr ?_
  refine (h.tiling.tiles.ordered.sublist List.filter_sublist).imp fun {s t} hst => Or.inl ?_
  show c.va + s.off + s.size ≤ c.va + t.off
  omega

namespace Table

variable {cs : List Carve} {live : List Mapping}

theorem empty : Table [] [] := ⟨by simp, List.Pairwise.nil, by simp⟩

/-- An address lies in at most one carve-out. -/
theorem carve_unique (T : Table cs live) {c d : Carve} (hc : c ∈ cs) (hd : d ∈ cs) {x : ℕ}
    (hxc : x ∈ c.extent) (hxd : x ∈ d.extent) : c = d := by
  by_contra hne
  have : Std.Symm fun c d : Carve => Apart c.extent d.extent := ⟨fun _ _ h => h.symm⟩
  exact (T.apart.forall hc hd hne).not_mem hxc hxd

/-- **Live mappings do not overlap.** -/
theorem pairwise (T : Table cs live) : (live.map Mapping.extent).Pairwise Apart := by
  refine (T.used.pairwise_iff fun h => h.symm).mp ?_
  refine List.pairwise_flatMap.mpr ⟨fun c hc => (T.good c hc).pairwise, ?_⟩
  refine T.apart.imp_of_mem fun {c d} hc hd hcd e he f hf => ?_
  exact hcd.mono ((T.good c hc).usedExtent he).1 ((T.good d hd).usedExtent hf).1

/-- A live mapping is a block in use of some carve-out. -/
theorem exists_carve (T : Table cs live) {m : Mapping} (hm : m ∈ live) :
    ∃ c ∈ cs, m.extent ∈ c.usedExtents :=
  List.mem_flatMap.mp (T.used.mem_iff.mpr (List.mem_map_of_mem hm))

/-- Live mappings with a common address are the same pages. -/
theorem extent_unique (T : Table cs live) {e f : Extent} (he : e ∈ live.map Mapping.extent)
    (hf : f ∈ live.map Mapping.extent) {x : ℕ} (hxe : x ∈ e) (hxf : x ∈ f) : e = f := by
  by_contra hne
  have : Std.Symm Apart := ⟨fun _ _ h => h.symm⟩
  exact (T.pairwise.forall he hf hne).not_mem hxe hxf

/-- **Adding a carve-out** in which nothing is in use. -/
theorem push (T : Table cs live) {c : Carve} (hc : GoodCarve c) (hfree : c.usedExtents = [])
    (hapart : ∀ d ∈ cs, Apart c.extent d.extent) : Table (cs ++ [c]) live := by
  refine ⟨fun d hd => ?_, ?_, ?_⟩
  · rcases List.mem_append.mp hd with hd | hd
    · exact T.good d hd
    · obtain rfl := List.mem_singleton.mp hd
      exact hc
  · refine List.pairwise_append.mpr ⟨T.apart, List.pairwise_singleton _ _, fun d hd e he => ?_⟩
    obtain rfl := List.mem_singleton.mp he
    exact (hapart d hd).symm
  · rw [List.flatMap_append, List.flatMap_cons, hfree]
    simpa using T.used

/-- **Rewriting one carve-out in place.** -/
theorem modify {l₁ l₂ : List Carve} {c c' : Carve} {live' : List Mapping}
    (T : Table (l₁ ++ c :: l₂) live) (hc' : GoodCarve c') (he : c'.extent = c.extent)
    (hused : ((l₁ ++ c' :: l₂).flatMap Carve.usedExtents).Perm (live'.map Mapping.extent)) :
    Table (l₁ ++ c' :: l₂) live' := by
  obtain ⟨h1, h2, h3⟩ := List.pairwise_append.mp T.apart
  obtain ⟨h4, h5⟩ := List.pairwise_cons.mp h2
  refine ⟨fun d hd => ?_, ?_, hused⟩
  · simp only [List.mem_append, List.mem_cons] at hd
    rcases hd with hd | rfl | hd
    · exact T.good d (by simp [hd])
    · exact hc'
    · exact T.good d (by simp [hd])
  · refine List.pairwise_append.mpr ⟨h1, List.pairwise_cons.mpr ⟨fun d hd => ?_, h5⟩, ?_⟩
    · rw [he]; exact h4 d hd
    · intro d hd e he'
      rcases List.mem_cons.mp he' with rfl | he'
      · rw [he]; exact h3 d hd c List.mem_cons_self
      · exact h3 d hd e (List.mem_cons_of_mem _ he')

/-- One more block in use in one carve-out is one more in the table. -/
theorem used_replace {l₁ l₂ : List Carve} {c c' : Carve} {e : Extent}
    (h : c'.usedExtents.Perm (e :: c.usedExtents)) :
    ((l₁ ++ c' :: l₂).flatMap Carve.usedExtents).Perm
      (e :: (l₁ ++ c :: l₂).flatMap Carve.usedExtents) := by
  simp only [List.flatMap_append, List.flatMap_cons]
  refine ((h.append_right _).append_left _).trans ?_
  rw [List.cons_append]
  exact List.perm_middle

end Table

end OrbisCompat.Mmap
