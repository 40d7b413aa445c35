import OrbisCompat.Mmap.System

/-!
# `src/orbis_mmap.cpp`: what the file tells about itself

`orbis::mmapDirectDescribe`, which a crash handler asks what an address is, and `orbis_mmap_counts`.
-/

namespace OrbisCompat.Mmap

/-- `MmapDirectSpan`. -/
structure MmapDirectSpan where
  /-- From 1, as the banner prints it. -/
  index : ℕ
  base : ℕ
  size : ℕ
  offset : ℕ
  blockFound : Bool
  blockUsed : Bool
  blockOff : ℕ
  blockSize : ℕ
  deriving DecidableEq, Repr

/-- The inner loop of `mmapDirectDescribe`: the first block that an offset falls in. -/
def describeBlock (c : Carve) (offset : ℕ) : Option ℕ :=
  (c.blk.setLen (min c.n MaxBlocks)).firstIdx fun blk =>
    !(decide (offset < blk.off) || decide (offset ≥ Word64.add blk.off blk.size))

/-- The body of its outer loop, for the carve-out at index `i`. -/
def describeCarve (i : ℕ) (c : Carve) (p : ℕ) : MmapDirectSpan :=
  let out : MmapDirectSpan := ⟨i + 1, c.va, c.size, Word64.sub p c.va, false, false, 0, 0⟩
  match describeBlock c out.offset with
  | none => out
  | some b =>
    let blk := c.blk.slot b
    { out with blockFound := true, blockUsed := blk.used, blockOff := blk.off, blockSize := blk.size }

/-- `orbis::mmapDirectDescribe`: what it leaves in `out`, or `none` when it returns false. -/
def mmapDirectDescribe (direct : Bool) (s : State) (addr : ℕ) : Option MmapDirectSpan :=
  if direct then
    ((s.carve.setLen (min s.carves MaxCarves)).firstIdx fun c =>
      !(c.va == 0 || decide (addr < c.va) || decide (addr ≥ Word64.add c.va c.size))).map fun i =>
        describeCarve i (s.carve.slot i) addr
  else none

/-- What `orbis_mmap_counts` stores through its six pointers. -/
structure MmapCounts where
  maps : ℕ
  mapsCarved : ℕ
  mapsFell : ℕ
  unmaps : ℕ
  unmapsCarved : ℕ
  unmapsFell : ℕ
  deriving DecidableEq, Repr

/-- `orbis_mmap_counts`. -/
def orbisMmapCounts (s : State) : MmapCounts :=
  ⟨s.mmapCalls, s.mmapCarved, s.mmapFell, s.munmapCalls, s.munmapCarved, s.munmapFell⟩

end OrbisCompat.Mmap
