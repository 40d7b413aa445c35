import OrbisCompat.Mmap.Describe
import OrbisCompat.Mmap.Equiv.Census

/-!
# What the crash handler is told is right

The blocks of a carve-out tile it, so every address of a carve-out is in one of them and in no other
(`GoodCarve.exists_block`, `GoodCarve.block_unique`), and the linear scan of `mmapDirectDescribe` finds
that one.  The blocks in use are the live mappings, so the flag it reports is the verdict on a
use-after-free (`Reaches.describe_exact`).
-/

namespace OrbisCompat.Mmap

open Extent Tile

variable {s : State} {live : List Mapping} {c : Carve} {addr : ℕ}

/-! ### One carve-out -/

/-- Every address of a carve-out is in one of its blocks. -/
theorem GoodCarve.exists_block (h : GoodCarve c) (hx : addr ∈ c.extent) :
    ∃ b ∈ c.blocks, addr ∈ b.extent c.va := by
  obtain ⟨hlo, hhi⟩ := Extent.mem_iff.mp hx
  rw [Carve.extent_start] at hlo
  rw [Carve.extent_start, Carve.extent_len] at hhi
  obtain ⟨b, hb, h1, h2⟩ := h.tiling.tiles.exists_mem (x := addr - c.va) (Nat.zero_le _) (by omega)
  refine ⟨b, hb, Extent.mem_iff.mpr ⟨?_, ?_⟩⟩
  · show c.va + b.off ≤ addr
    omega
  · show addr < c.va + b.off + b.size
    omega

/-- And in no other. -/
theorem GoodCarve.block_unique (h : GoodCarve c) {b b' : Block} (hb : b ∈ c.blocks)
    (hb' : b' ∈ c.blocks) (hx : addr ∈ b.extent c.va) (hx' : addr ∈ b'.extent c.va) : b = b' := by
  refine Extent.eq_of_mem_of_apart (f := Tile.extent c.va)
    (h.tiling.tiles.ordered.imp fun {s t} hst => Or.inl ?_) hb hb' hx hx'
  show c.va + s.off + s.size ≤ c.va + t.off
  omega

/-- A block lies inside its carve-out. -/
theorem GoodCarve.mem_of_block (h : GoodCarve c) {b : Block} (hb : b ∈ c.blocks)
    (hx : addr ∈ b.extent c.va) : addr ∈ c.extent := by
  obtain ⟨hle, -⟩ := h.block_le hb
  obtain ⟨hlo, hhi⟩ := Extent.mem_iff.mp hx
  refine Extent.mem_iff.mpr ⟨?_, ?_⟩
  · exact (Nat.le_add_right _ _).trans hlo
  · show addr < c.va + c.size
    have hend : addr < c.va + b.off + b.size := hhi
    omega

/-- The test of the inner loop, for a block of the carve-out. -/
theorem GoodCarve.test_block (h : GoodCarve c) {b : Block} (hb : b ∈ c.blocks) :
    (!(decide (addr - c.va < b.off) || decide (addr - c.va ≥ Word64.add b.off b.size))) = true ∧
      addr ∈ c.extent ↔ addr ∈ b.extent c.va := by
  obtain ⟨hle, huser⟩ := h.block_le hb
  have hend : Word64.add b.off b.size = b.off + b.size := Word64.add_of_lt (by omega)
  rw [hend, Extent.mem_iff, Extent.mem_iff, Carve.extent_start, Carve.extent_len]
  show _ ↔ c.va + b.off ≤ addr ∧ addr < c.va + b.off + b.size
  simp only [Bool.not_eq_true', Bool.or_eq_false_iff, decide_eq_false_iff_not, Nat.not_lt, ge_iff_le,
    Nat.not_le]
  omega

/-- The inner loop finds the block of an address. -/
theorem GoodCarve.describeBlock (h : GoodCarve c) (hx : addr ∈ c.extent) :
    ∃ b < c.n, Mmap.describeBlock c (addr - c.va) = some b ∧
      c.blk.slot b ∈ c.blocks ∧ addr ∈ (c.blk.slot b).extent c.va := by
  have hall : c.blk.setLen (min c.n MaxBlocks) = c.blk := by
    rw [Nat.min_eq_left h.few]
    rfl
  unfold Mmap.describeBlock
  rw [hall]
  cases hfirst : c.blk.firstIdx fun blk =>
      !(decide (addr - c.va < blk.off) || decide (addr - c.va ≥ Word64.add blk.off blk.size)) with
  | none =>
    -- the block that the address is in passes the test
    obtain ⟨b, hb, hxb⟩ := h.exists_block hx
    obtain ⟨j, hj, rfl⟩ := CTable.mem_toList.mp hb
    have htest := ((h.test_block hb).mpr hxb).1
    rw [CTable.firstIdx_eq_none.mp hfirst j hj] at htest
    cases htest
  | some b =>
    obtain ⟨hb, htest, -⟩ := CTable.firstIdx_eq_some.mp hfirst
    have hmem : c.blk.slot b ∈ c.blocks := CTable.mem_toList.mpr ⟨b, hb, rfl⟩
    exact ⟨b, hb, rfl, hmem, (h.test_block hmem).mp ⟨htest, hx⟩⟩

/-- **What the body of the outer loop reports**: the place in the carve-out, and its block. -/
theorem GoodCarve.describeCarve (h : GoodCarve c) (hx : addr ∈ c.extent) (i : ℕ) :
    ∃ b ∈ c.blocks, addr ∈ b.extent c.va ∧ describeCarve i c addr
      = ⟨i + 1, c.va, c.size, addr - c.va, true, b.used, b.off, b.size⟩ := by
  have huser := h.user
  obtain ⟨hlo, hhi⟩ := Extent.mem_iff.mp hx
  rw [Carve.extent_start] at hlo hhi
  rw [Carve.extent_len] at hhi
  unfold userEnd at huser
  have hoff : Word64.sub addr c.va = addr - c.va := Word64.sub_of_le hlo (by omega)
  obtain ⟨b, -, hfind, hmem, hxb⟩ := h.describeBlock hx
  refine ⟨c.blk.slot b, hmem, hxb, ?_⟩
  unfold Mmap.describeCarve
  dsimp only
  rw [hoff, hfind]

/-! ### The table -/

/-- A block in use is one that a live mapping lies in. -/
theorem Table.used_iff (T : Table s.carveList live) (hc : c ∈ s.carveList) {b : Block}
    (hb : b ∈ c.blocks) (hx : addr ∈ b.extent c.va) :
    b.used = true ↔ ∃ m ∈ live, addr ∈ m.extent := by
  constructor
  · intro hused
    have hmem : b.extent c.va ∈ s.carveList.flatMap Carve.usedExtents :=
      List.mem_flatMap.mpr ⟨c, hc, List.mem_map_of_mem (List.mem_filter.mpr ⟨hb, hused⟩)⟩
    obtain ⟨m, hm, heq⟩ := List.mem_map.mp (T.used.mem_iff.mp hmem)
    exact ⟨m, hm, by rw [heq]; exact hx⟩
  · rintro ⟨m, hm, hxm⟩
    obtain ⟨d, hd, hmd⟩ := T.exists_carve hm
    have hxd : addr ∈ d.extent := ((T.good d hd).usedExtent hmd).1.mem hxm
    have hxc : addr ∈ c.extent := (T.good c hc).mem_of_block hb hx
    -- the mapping is in the same carve-out, and there it is the same block
    obtain rfl := T.carve_unique hc hd hxc hxd
    obtain ⟨b', hb', heq⟩ := List.mem_map.mp hmd
    obtain ⟨hb', hused'⟩ := List.mem_filter.mp hb'
    rw [← heq] at hxm
    rw [(T.good c hc).block_unique hb hb' hx hxm]
    exact hused'

/-- The test of the outer loop, for a carve-out of the table. -/
theorem GoodCarve.test_carve (h : GoodCarve c) :
    (!(c.va == 0 || decide (addr < c.va) || decide (addr ≥ Word64.add c.va c.size))) = true ↔
      addr ∈ c.extent := by
  have huser := h.user
  have hpos := h.va_pos
  unfold userEnd at huser
  have hend : Word64.add c.va c.size = c.va + c.size := Word64.add_of_lt (by omega)
  rw [hend, Extent.mem_iff, Carve.extent_start, Carve.extent_len]
  simp only [Bool.not_eq_true', Bool.or_eq_false_iff, decide_eq_false_iff_not, Nat.not_lt, ge_iff_le,
    Nat.not_le, beq_eq_false_iff_ne]
  omega

/-- **The outer loop** finds the carve-out that the address is in. -/
theorem Table.describe (T : Table s.carveList live) (hfew : s.carves ≤ MaxCarves) (addr : ℕ) :
    mmapDirectDescribe true s addr = none ∧ (∀ c ∈ s.carveList, addr ∉ c.extent) ∨
    ∃ i < s.carves, addr ∈ (s.carve.slot i).extent ∧
      mmapDirectDescribe true s addr = some (describeCarve i (s.carve.slot i) addr) := by
  have hall : s.carve.setLen (min s.carves MaxCarves) = s.carve := by
    rw [Nat.min_eq_left hfew]
    rfl
  unfold mmapDirectDescribe
  rw [if_pos rfl, hall]
  cases hfirst : s.carve.firstIdx fun c =>
      !(c.va == 0 || decide (addr < c.va) || decide (addr ≥ Word64.add c.va c.size)) with
  | none =>
    refine Or.inl ⟨rfl, fun c hc hx => ?_⟩
    obtain ⟨j, hj, rfl⟩ := CTable.mem_toList.mp hc
    have htest := (T.good _ hc).test_carve.mpr hx
    rw [CTable.firstIdx_eq_none.mp hfirst j hj] at htest
    cases htest
  | some i =>
    obtain ⟨hi, htest, -⟩ := CTable.firstIdx_eq_some.mp hfirst
    have hmem : s.carve.slot i ∈ s.carveList := CTable.mem_toList.mpr ⟨i, hi, rfl⟩
    exact Or.inr ⟨i, hi, (T.good _ hmem).test_carve.mp htest, rfl⟩

/-! ### Every reachable state -/

/-- `d` says where `addr` is: in the carve-out of that index, at that offset, in the one block there that
contains it, and whether a mapping that is still live does. -/
structure MmapDirectSpan.Describes (d : MmapDirectSpan) (w : World) (addr : ℕ) : Prop where
  carve : ∃ i < w.st.carves, d.index = i + 1 ∧ d.base = (w.st.carve.slot i).va ∧
    d.size = (w.st.carve.slot i).size ∧ d.offset < d.size ∧ addr = d.base + d.offset ∧
    ∃! b, b ∈ (w.st.carve.slot i).blocks ∧ addr ∈ b.extent d.base
  block : ∀ i, d.index = i + 1 → ∀ b ∈ (w.st.carve.slot i).blocks, addr ∈ b.extent d.base →
    d.blockOff = b.off ∧ d.blockSize = b.size ∧ d.blockUsed = b.used
  found : d.blockFound = true
  used : d.blockUsed = true ↔ ∃ m ∈ w.live, addr ∈ m.extent

/-- **`mmapDirectDescribe` is right** about every address, in every state that owned mappings of `1` to
`2 ^ 63` bytes and unmappings lead to. -/
theorem Reaches.describe_exact {mem : FlatMem} {cs : List Call} {w : World}
    (h : Reaches true (Call.LenWithin (2 ^ 63)) mem cs w) (addr : ℕ) :
    ((mmapDirectDescribe true w.st addr).isSome ↔ ∃ c ∈ w.st.carveList, addr ∈ c.extent) ∧
    ∀ d, mmapDirectDescribe true w.st addr = some d → d.Describes w addr := by
  obtain ⟨T, C⟩ := h.census_ok
  rcases T.describe C.held.few addr with ⟨hnone, hout⟩ | ⟨i, hi, hx, hsome⟩
  · rw [hnone]
    refine ⟨?_, fun d hd => by cases hd⟩
    constructor
    · intro hn
      cases hn
    · rintro ⟨c, hc, hx⟩
      exact absurd hx (hout c hc)
  · have hmem : w.st.carve.slot i ∈ w.st.carveList := CTable.mem_toList.mpr ⟨i, hi, rfl⟩
    have hgood := T.good _ hmem
    obtain ⟨b, hb, hxb, hbody⟩ := hgood.describeCarve hx i
    rw [hsome, hbody]
    refine ⟨⟨fun _ => ⟨_, hmem, hx⟩, fun _ => rfl⟩, fun d hd => ?_⟩
    obtain rfl := Option.some.inj hd
    obtain ⟨hlo, hhi⟩ := Extent.mem_iff.mp hx
    rw [Carve.extent_start] at hlo hhi
    rw [Carve.extent_len] at hhi
    have hplace : addr - (w.st.carve.slot i).va < (w.st.carve.slot i).size := by omega
    have hsum : addr = (w.st.carve.slot i).va + (addr - (w.st.carve.slot i).va) := by omega
    refine ⟨⟨i, hi, rfl, rfl, rfl, hplace, hsum, b, ⟨hb, hxb⟩, ?_⟩, ?_, rfl, T.used_iff hmem hb hxb⟩
    · rintro b' ⟨hb', hxb'⟩
      exact hgood.block_unique hb' hb hxb' hxb
    · intro j hj b' hb' hxb'
      obtain rfl : i = j := Nat.succ.inj hj
      obtain rfl := hgood.block_unique hb hb' hxb hxb'
      exact ⟨rfl, rfl, rfl⟩

/-- Two pages are mapped on an idle console and unmapped again: a pointer into them is a use after
free. -/
theorem describe_after_munmap : ∃ w d, Reaches true (Call.LenWithin (2 ^ 63)) (fun _ => 0)
      [.mmap (ownedRequest 20000), .munmap 0x200000000 20000] w ∧
    mmapDirectDescribe true w.st 0x200004000 = some d ∧ d.Describes w 0x200004000 ∧
    d.blockUsed = false := by
  have hmap : Step true (World.init fun _ => 0) (.mmap (ownedRequest 20000)) _ :=
    .mmap .idle Platform.idle_documented (by decide)
  have hunmap : Step true _ (.munmap 0x200000000 20000) _ :=
    .munmap (w := (World.init fun _ => 0).mapped 20000
      (mmap true .idle (World.init fun _ => 0).st (ownedRequest 20000))) .idle (by decide) (by decide)
  have hrun : Reaches true (Call.LenWithin (2 ^ 63)) (fun _ => 0)
      [.mmap (ownedRequest 20000), .munmap 0x200000000 20000] _ :=
    .cons ⟨fun _ => by decide, hmap⟩ (.cons ⟨trivial, hunmap⟩ (.nil _))
  exact ⟨_, ⟨1, 0x200000000, 0x8000000, 0x4000, true, false, 0, 0x8000000⟩, hrun, by decide +kernel,
    (hrun.describe_exact 0x200004000).2 _ (by decide +kernel), rfl⟩

end OrbisCompat.Mmap
