import OrbisCompat.Jit.Equiv.Inversion
import OrbisCompat.Jit.Equiv.Lengths
import OrbisCompat.Jit.Equiv.Search

/-!
# Where a new mapping lands

`MAP_FIXED` replaces whatever is there, so the file asks the kernel about every granule first.  A
mapping that is granted is apart from every arena, whether the kernel chose its address
(`Granted.apart`), the search did (`Granted.apart_place`) or the caller (`Granted.apart_search`).
Nothing is assumed of the arenas but that they consist of whole granules.
-/

namespace OrbisCompat.Jit

open Extent

/-- The arena consists of whole granules. -/
def OrbisJitArena.InGranules (a : OrbisJitArena) : Prop :=
  0 < a.size ∧ 16384 ∣ a.base ∧ 16384 ∣ a.size

variable {pf : Platform} {as : List OrbisJitArena} {at' len base phys : ℕ}

/-- A range the search answered for is apart from every arena. -/
theorem Unmapped.apart (hpf : pf.Documented as) (hin : ∀ a ∈ as, a.InGranules) {r : ℕ}
    (h : Unmapped pf.virtualQuery r len) (hd : 16384 ∣ r) (hpos : 0 < len)
    (hfit : r + len ≤ userEnd) : ∀ a ∈ as, Apart ⟨r, len⟩ a.extent := by
  intro a ha
  obtain ⟨hsize, hbd, hsd⟩ := hin a ha
  refine apart_of_forall_not_mem hpos hsize fun x hx hxa => ?_
  obtain ⟨k, hk⟩ := h.exists_query hd (by unfold userEnd at hfit; omega) hx.1 hx.2
  -- the granule of `x` lies in the arena too, so the kernel answers for it
  have hgran : x / 16384 * 16384 ∈ a.extent := by
    obtain ⟨h1, h2⟩ := hxa
    simp only [OrbisJitArena.extent_start, OrbisJitArena.extent_stop] at h1 h2
    rw [mem_iff, OrbisJitArena.extent_start, OrbisJitArena.extent_len]
    omega
  exact hpf.query_mapped k _ ⟨a, ha, hgran⟩ hk

/-- A granted range is apart from every arena: the kernel chose it, or it was asked about first. -/
theorem Granted.apart (hg : Granted pf at' len base phys) (hpf : pf.Documented as)
    (hfree : at' ≠ 0 → 0 < len → at' + len ≤ userEnd → ∀ a ∈ as, Apart ⟨at', len⟩ a.extent) :
    ∀ a ∈ as, Apart ⟨base, len⟩ a.extent := by
  obtain ⟨hlen, hbase, -, huser⟩ := hg.spec hpf
  rcases hg.placed with rfl | rfl
  · exact hpf.map_fresh _ len base hg.mapped (Or.inl rfl)
  · exact hfree (Nat.ne_of_gt hbase) hlen huser

/-- The mapping of `orbis_jit_grow`. -/
theorem Granted.apart_place {anchor flags : ℕ} (hg : Granted pf at' len base phys)
    (hpf : pf.Documented as) (hin : ∀ a ∈ as, a.InGranules) (hlen : 16384 ∣ len)
    (hlt : len < 2 ^ 64) (hplace : orbisJitPlace anchor pf len flags = some (some at')) :
    ∀ a ∈ as, Apart ⟨base, len⟩ a.extent := by
  refine hg.apart hpf fun h0 hpos hfit => ?_
  have hun : 16384 ∣ at' ∧ Unmapped pf.virtualQuery at' len := by
    rcases orbisJitPlace_cases hplace with ⟨rfl, -⟩ | ⟨-, h | h⟩
    · exact absurd rfl h0
    · exact (orbisJitFindFree_unmapped hlen hlt h h0).2.2
    · exact (orbisJitFindFree_unmapped hlen hlt h h0).2.2
  exact hun.2.apart hpf hin hun.1 hpos hfit

/-- The mapping of `orbis_jit_alloc_at`. -/
theorem Granted.apart_search {found : ℕ} (hg : Granted pf at' len base phys)
    (hpf : pf.Documented as) (hin : ∀ a ∈ as, a.InGranules) (hat : 16384 ∣ at') (hlen : 16384 ∣ len)
    (hlt : len < 2 ^ 64)
    (hfound : orbisJitFindFree pf.virtualQuery at' (Word64.add at' len) len = some found)
    (h0 : found ≠ 0) : ∀ a ∈ as, Apart ⟨base, len⟩ a.extent := by
  refine hg.apart hpf fun _ hpos hfit => ?_
  -- the search can only have answered `at'` itself, so the mapping replaces nothing
  have hadd : Word64.add at' len = at' + len := Word64.add_of_lt (by unfold userEnd at hfit; omega)
  rw [hadd] at hfound
  obtain rfl := orbisJitFindFree_exact hlen hfit hpf.query_end hfound h0
  obtain ⟨-, -, -, hun⟩ := orbisJitFindFree_unmapped hlen hlt hfound h0
  exact hun.apart hpf hin hat hpos hfit

end OrbisCompat.Jit
