import OrbisCompat.Kernel
import OrbisCompat.Lib.CTable
import OrbisCompat.Lib.FlatMem
import OrbisCompat.Lib.Tiling
import OrbisCompat.Lib.Word64

/-!
# `src/orbis_mmap.cpp`: carve-outs and the kernel under them

The types and constants of the interposer that serves musl's anonymous mappings from direct memory.
A carve-out's block list is the C array `blk[MaxBlocks]` with its count `n`, and the carve-outs are
the C array `carve[MaxCarves]` with its count `carves`; both are `CTable`s.

What `orbis_log` writes is not modelled, and neither are the three counters that only decide whether
it writes (`fallbackLogged`, `anomalyLogged`, `bannerDone`).
-/

namespace OrbisCompat.Mmap

/-- `Page`: what musl rounds every mapping to. -/
def Page : ℕ := 0x4000

/-- `DirectAlign`: the direct-memory quantum. -/
def DirectAlign : ℕ := 0x200000

/-- `CarveBytes`: 128 MiB. -/
def CarveBytes : ℕ := 128 * 1024 * 1024

/-- `MaxCarves`. -/
def MaxCarves : ℕ := 12

/-- `DirectCap`. -/
def DirectCap : ℕ := MaxCarves * CarveBytes

/-- `MaxBlocks`. -/
def MaxBlocks : ℕ := 1536

/-- `OwnedProt`: `PROT_READ|PROT_WRITE`. -/
def OwnedProt : ℤ := 3

/-- `OwnedFlags`: `MAP_PRIVATE|MAP_ANON`. -/
def OwnedFlags : ℤ := 0x1002

/-- `EINVAL`. -/
def EINVAL : ℤ := 22

/-- `Block`: `off`, `size` and `used`. -/
abbrev Block := Tile

/-- `Carve`. -/
structure Carve where
  va : ℕ
  phys : ℕ
  size : ℕ
  blk : CTable Block

namespace Carve

/-- An all-zero table entry. -/
def zero : Carve := ⟨0, 0, 0, ⟨0, fun _ => ⟨0, 0, false⟩⟩⟩

/-- `n`. -/
def n (c : Carve) : ℕ := c.blk.n

/-- The blocks of the carve-out. -/
def blocks (c : Carve) : List Block := c.blk.toList

/-- `[va, va + size)`. -/
def extent (c : Carve) : Extent := ⟨c.va, c.size⟩

/-- Where the blocks in use lie. -/
def usedExtents (c : Carve) : List Extent := (Tile.usedOf c.blocks).map (Tile.extent c.va)

@[simp] theorem extent_start (c : Carve) : c.extent.start = c.va := rfl

@[simp] theorem extent_len (c : Carve) : c.extent.len = c.size := rfl

@[simp] theorem extent_stop (c : Carve) : c.extent.stop = c.va + c.size := rfl

@[simp] theorem length_blocks (c : Carve) : c.blocks.length = c.n := c.blk.length_toList

end Carve

/-- The statics of the file, the memory it clears and what the kernel holds for it. -/
structure State where
  /-- `carve[0 .. carves)`. -/
  carve : CTable Carve
  heldBytes : ℕ := 0
  liveBytes : ℕ := 0
  peakLive : ℕ := 0
  cumMapped : ℕ := 0
  mapCalls : ℕ := 0
  unmapCalls : ℕ := 0
  fallbackCalls : ℕ := 0
  fallbackBytes : ℕ := 0
  anomalies : ℕ := 0
  mmapCalls : ℕ := 0
  mmapCarved : ℕ := 0
  mmapFell : ℕ := 0
  munmapCalls : ℕ := 0
  munmapCarved : ℕ := 0
  munmapFell : ℕ := 0
  errno : ℤ := 0
  mem : FlatMem
  kernel : Holdings := {}

namespace State

/-- `.bss`, before the first call. -/
def init (mem : FlatMem) : State := { carve := ⟨0, fun _ => .zero⟩, mem }

/-- `carves`. -/
def carves (s : State) : ℕ := s.carve.n

/-- The carve-outs in use. -/
def carveList (s : State) : List Carve := s.carve.toList

/-- Where the blocks in use of all carve-outs lie. -/
def usedExtents (s : State) : List Extent := s.carveList.flatMap Carve.usedExtents

end State

/-- The arguments of `__mmap`. -/
structure MapRequest where
  addr : ℕ
  len : ℕ
  prot : ℤ
  flags : ℤ
  fd : ℤ
  off : ℤ
  deriving DecidableEq, Repr

/-- What the platform answers while one call of this file runs. -/
structure Platform where
  /-- `sceKernelAllocateDirectMemory` for a length: the physical offset, or `none` for an error. -/
  allocateDirectMemory : ℕ → Option ℕ
  /-- `sceKernelMapDirectMemory` for a length and an offset: where it landed, or `none` for an
  error. -/
  mapDirectMemory : ℕ → ℕ → Option ℕ
  /-- The platform's own `mmap`. -/
  mmap : MapRequest → ℕ
  /-- The platform's own `munmap`. -/
  munmap : ℕ → ℕ → ℤ
  /-- The platform's own `madvise`. -/
  madvise : ℕ → ℕ → ℤ → ℤ

/-- What a call returns, and whether it was answered out of a carve-out. -/
structure Answer (α : Type) where
  value : α
  carved : Bool
  deriving DecidableEq, Repr

/-- `alignUp`. -/
def alignUp (v a : ℕ) : ℕ := Word64.alignUp v a

/-- `c.fetch_add(n)` on a 64-bit counter. -/
def bump (c n : ℕ) : ℕ := Word64.add c n

/-- `noteLive`. -/
def State.noteLive (s : State) (n : ℕ) : State :=
  let now := bump s.liveBytes n
  { s with
    liveBytes := now
    peakLive := if now > s.peakLive then now else s.peakLive
    cumMapped := bump s.cumMapped n
    mapCalls := bump s.mapCalls 1 }

/-- What `mapOwned` counts when it falls back to flexible memory. -/
def State.noteFallback (s : State) (n : ℕ) : State :=
  { s with fallbackCalls := bump s.fallbackCalls 1, fallbackBytes := bump s.fallbackBytes n }

end OrbisCompat.Mmap
