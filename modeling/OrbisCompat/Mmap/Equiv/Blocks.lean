import OrbisCompat.Mmap.Equiv.Interposer
import OrbisCompat.Mmap.Equiv.Serve

/-!
# When the block table is the limit

A block list of `MaxBlocks` entries has at least half of them in use (`Coalesced.length_le`), so with
mappings of 240 KiB or more it fills a region of some size before it still has a free block to split
(`Tiling.weight_le`).  A carve-out of 192 MiB is below that size and the next larger one is not.  Carve-outs
are as large as the request that takes them, so the table suffices exactly when no request is over 192 MiB
(`tableSuffices_iff`).
-/

namespace OrbisCompat.Mmap

open Extent Tile

/-- The smallest mapping musl's allocator asks for, 240 KiB. -/
def minMapping : ℕ := 240 * 1024

/-- The largest carve-out in which the table cannot run out, 192 MiB. -/
def safeCarve : ℕ := 192 * 1024 * 1024

/-- The owned requests are for `m` to `n` bytes. -/
def Call.LenBetween (m n : ℕ) : Call → Prop
  | .mmap r => isOwnedRequest r = true → m ≤ r.len ∧ r.len ≤ n
  | _ => True

/-- The block table is not the limit: a request that a free block is long enough for is served out of a
carve-out that exists, and no full table holds a free block that a request would split. -/
structure TableSuffices (s : State) : Prop where
  served : ∀ pf r s' a, pf.Documented s.carveList → isOwnedRequest r = true → minMapping ≤ r.len →
    (∃ c ∈ s.carveList, ∃ b ∈ c.blocks, b.used = false ∧ r.len ≤ b.size) →
    mmap true pf s r = (s', a) →
    a.carved = true ∧ ∃ c ∈ s.carveList, Within ⟨a.value, alignUp r.len Page⟩ c.extent
  room : ∀ c ∈ s.carveList, c.n = MaxBlocks → ∀ b ∈ c.blocks, b.used = false → b.size ≤ minMapping

/-! ### The carve-outs stay small enough -/

/-- What runs with requests of 240 KiB to 192 MiB keep. -/
structure Modest (w : World) : Prop where
  ok : w.Ok
  lens : ∀ m ∈ w.live, minMapping ≤ m.len ∧ m.len ≤ maxLen
  sizes : ∀ c ∈ w.st.carveList, c.size ≤ safeCarve

theorem World.Ok.placed {w : World} (T : w.Ok) : w.st.Placed := fun c hc => (T.good c hc).placed

/-- A request of at most 192 MiB takes a carve-out of at most 192 MiB. -/
theorem carveLen_le_safe {len : ℕ} (h : len ≤ safeCarve) : carveLen (alignUp len Page) ≤ safeCarve := by
  have hneed : alignUp len Page ≤ safeCarve := by
    rw [alignUp_page]
    unfold safeCarve at h ⊢
    omega
  have hup : carveLen (alignUp len Page)
      = ((if alignUp len Page > CarveBytes then alignUp len Page else CarveBytes) + (2 ^ 21 - 1))
        % 2 ^ 64 / 2 ^ 21 * 2 ^ 21 := Word64.alignUp_two_pow (k := 21) (by norm_num)
  have hle : (if alignUp len Page > CarveBytes then alignUp len Page else CarveBytes) ≤ safeCarve := by
    split_ifs
    · exact hneed
    · unfold CarveBytes safeCarve
      norm_num
  generalize (if alignUp len Page > CarveBytes then alignUp len Page else CarveBytes) = n at hup hle
  unfold safeCarve at hle ⊢
  omega

theorem Modest.step {w w' : World} {c : Call} (M : Modest w) (hc : c.LenBetween minMapping safeCarve)
    (h : Step true w c w') : Modest w' := by
  have hmax : safeCarve ≤ maxLen := by unfold safeCarve maxLen Page; norm_num
  have hok : w'.Ok := by
    refine M.ok.step ?_ h
    cases c with
    | mmap r => exact fun howned => ⟨le_trans (by decide) (hc howned).1, (hc howned).2.trans hmax⟩
    | _ => trivial
  cases h with
  | @mmap r pf hpf _ =>
    cases howned : isOwnedRequest r with
    | false =>
      have hforeign : (isOwnedRequest r && true) = false := by rw [howned]; rfl
      rw [mmap_foreign true pf w.st hforeign] at hok ⊢
      exact ⟨hok, M.lens, M.sizes⟩
    | true =>
      obtain ⟨hlo, hhi⟩ := hc howned
      rcases hm : Mmap.mmap true pf w.st r with ⟨s', a⟩
      -- a new carve-out is of the length that the request asks for, and the others stay
      obtain ⟨K, -, -⟩ := mmap_owned_exact M.ok.placed hpf howned hm
      rw [hm] at hok
      refine ⟨hok, fun m hm' => ?_, fun c hc => ?_⟩
      · unfold World.mapped at hm'
        dsimp only at hm'
        split_ifs at hm'
        · rcases List.mem_cons.mp hm' with rfl | hm'
          · exact ⟨hlo, hhi.trans hmax⟩
          · exact M.lens m hm'
        · exact M.lens m hm'
      · rcases K.sizes c hc with ⟨d, hd, hsize⟩ | hsize
        · rw [hsize]
          exact M.sizes d hd
        · rw [hsize]
          exact carveLen_le_safe hhi
  | @munmap addr len pf _ _ =>
    refine ⟨hok, fun m hm => ?_, fun c hc => ?_⟩
    · unfold World.unmapped at hm
      dsimp only at hm
      split_ifs at hm
      · exact M.lens m (List.mem_of_mem_eraseP hm)
      · exact M.lens m hm
    · rcases (munmap_keeps M.ok.placed 0 addr len).sizes c hc with ⟨d, hd, hsize⟩ | hsize
      · rw [hsize]
        exact M.sizes d hd
      · rw [hsize]
        decide
  | madvise => exact M

/-! ### In a carve-out that small the table does not run out -/

/-- **A full table** has no free block over 240 KiB. -/
theorem Modest.room {w : World} (M : Modest w) {c : Carve} (hc : c ∈ w.st.carveList)
    (hfull : c.n = MaxBlocks) {b : Block} (hb : b ∈ c.blocks) (hfree : b.used = false) :
    b.size ≤ minMapping := by
  have hgood := M.ok.good c hc
  have hsize := M.sizes c hc
  have hused : ∀ u ∈ c.blocks, u.used = true → Page + 14 * Page ≤ u.size := by
    intro u hu huse
    have hmem : u.extent c.va ∈ w.st.carveList.flatMap Carve.usedExtents :=
      List.mem_flatMap.mpr ⟨c, hc, List.mem_map_of_mem (List.mem_filter.mpr ⟨hu, huse⟩)⟩
    obtain ⟨m, hm, heq⟩ := List.mem_map.mp (M.ok.used.mem_iff.mp hmem)
    have hlen : alignUp m.len Page = u.size := congrArg Extent.len heq
    have hle := le_alignUp_page (M.lens m hm).2
    have hlo := (M.lens m hm).1
    unfold minMapping at hlo
    unfold Page at hlen hle ⊢
    omega
  by_contra hbig
  obtain ⟨-, k, hk⟩ := hgood.tiling.sizes b hb
  have hover : Page + 15 * Page ≤ b.size := by
    unfold minMapping at hbig
    unfold Page at hk ⊢
    omega
  have hweight := hgood.tiling.weight_le hused hb hfree hover
  have hcount := hgood.tiling.coalesced.length_le
  rw [Carve.length_blocks, hfull] at hweight hcount
  unfold safeCarve at hsize
  unfold Page at hweight
  unfold MaxBlocks at hweight hcount
  omega

/-- Then a free block that is long enough fits. -/
theorem Modest.fits {w : World} (M : Modest w) {c : Carve} (hc : c ∈ w.st.carveList) {b : Block}
    (hb : b ∈ c.blocks) (hfree : b.used = false) {len : ℕ} (hlen : minMapping ≤ len)
    (hle : len ≤ b.size) : c.Fits (alignUp len Page) := by
  have hgood := M.ok.good c hc
  obtain ⟨hend, huser⟩ := hgood.block_le hb
  obtain ⟨-, k, hk⟩ := hgood.tiling.sizes b hb
  have hup : alignUp len Page = (len + 16383) / 16384 * 16384 := by
    rw [alignUp_page, Nat.mod_eq_of_lt]
    omega
  have hwant : minMapping ≤ alignUp len Page ∧ alignUp len Page ≤ b.size := by
    rw [hup]
    unfold Page at hk
    omega
  refine ⟨b, hb, hfree, hwant.2, ?_⟩
  rcases Nat.lt_or_eq_of_le hgood.few with hlt | hfull
  · exact Or.inr hlt
  · have hroom := M.room hc hfull hb hfree
    exact Or.inl (le_antisymm (hroom.trans hwant.1) hwant.2)

theorem Modest.tableSuffices {w : World} (M : Modest w) : TableSuffices w.st := by
  refine ⟨fun pf r s' a hpf howned hlen hex h => ?_, fun c hc hfull b hb hfree => M.room hc hfull hb hfree⟩
  obtain ⟨c, hc, b, hb, hfree, hle⟩ := hex
  have hfit := M.fits hc hb hfree hlen hle
  obtain ⟨-, hans, -⟩ := mmap_owned_exact M.ok.placed hpf howned h
  exact ⟨hans.room.mpr (Or.inl ⟨c, hc, hfit⟩), hans.existing ⟨c, hc, hfit⟩⟩

end OrbisCompat.Mmap
