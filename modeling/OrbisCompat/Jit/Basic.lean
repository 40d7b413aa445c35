import OrbisCompat.Kernel
import OrbisCompat.Lib.CTable
import OrbisCompat.Lib.FlatMem
import OrbisCompat.Lib.Word64

/-!
# `src/orbis_jit.c`: the arena table and the kernel under it

The types and constants of the executable-memory suballocator.  An arena's free list is the C array
`span[ORBIS_JIT_MAX_SPANS]` with its count `nspans`, and the arenas are the C array
`s_arena[ORBIS_JIT_MAX_ARENAS]` with its count `s_arenas`; both are `CTable`s.

Pointers are 64-bit addresses, with `0` for `NULL`.  What `orbis_report` writes to the log is not
modelled: no function of the file reads it back.
-/

namespace OrbisCompat.Jit

/-- `ORBIS_JIT_GRANULE`. -/
def orbisJitGranule : ℕ := 0x4000

/-- `ORBIS_JIT_REACH`: a rel32 displacement reaches 2 GiB either way. -/
def orbisJitReach : ℕ := 0x80000000

/-- `ORBIS_JIT_MODULE_SPAN`: how much either side of the anchor the module is assumed to occupy. -/
def orbisJitModuleSpan : ℕ := 0x10000000

/-- `ORBIS_JIT_WINDOW`. -/
def orbisJitWindow : ℕ := orbisJitReach - 2 * orbisJitModuleSpan

/-- `ORBIS_JIT_ALIGN`: blocks are cache-line aligned, and one such unit in front of every block
carries its length. -/
def orbisJitAlign : ℕ := 64

/-- `ORBIS_JIT_MAX_ARENAS`. -/
def orbisJitMaxArenas : ℕ := 8

/-- `ORBIS_JIT_MAX_SPANS`. -/
def orbisJitMaxSpans : ℕ := 256

/-- `ORBIS_JIT_NEAR_TEXT`, the only flag bit. -/
def orbisJitNearText : ℕ := 0x1

/-- `orbis_jit_span`: `at` and `len`. -/
abbrev OrbisJitSpan := Extent

/-- `orbis_jit_arena`. -/
structure OrbisJitArena where
  base : ℕ
  size : ℕ
  phys : ℕ
  /-- An arena from `orbis_jit_alloc_at` belongs to one caller and is never suballocated. -/
  dedicated : Bool
  span : CTable OrbisJitSpan

namespace OrbisJitArena

/-- An all-zero table entry. -/
def zero : OrbisJitArena := ⟨0, 0, 0, false, ⟨0, fun _ => ⟨0, 0⟩⟩⟩

/-- `nspans`. -/
def nspans (a : OrbisJitArena) : ℕ := a.span.n

/-- The free list of the arena. -/
def spans (a : OrbisJitArena) : List Extent := a.span.toList

/-- `[base, base + size)`. -/
def extent (a : OrbisJitArena) : Extent := ⟨a.base, a.size⟩

@[simp] theorem extent_start (a : OrbisJitArena) : a.extent.start = a.base := rfl

@[simp] theorem extent_len (a : OrbisJitArena) : a.extent.len = a.size := rfl

@[simp] theorem extent_stop (a : OrbisJitArena) : a.extent.stop = a.base + a.size := rfl

@[simp] theorem length_spans (a : OrbisJitArena) : a.spans.length = a.nspans := a.span.length_toList

end OrbisJitArena

/-- The statics of the file, the memory its arenas live in and what the kernel holds for it. -/
structure State where
  /-- `s_arena[0 .. s_arenas)`. -/
  sArena : CTable OrbisJitArena
  /-- `s_state`: `-1` not asked, `0` refused, `1` granted and executed. -/
  sState : ℤ
  mem : FlatMem
  kernel : Holdings

namespace State

/-- `.bss`, before the first call. -/
def init (mem : FlatMem) : State := ⟨⟨0, fun _ => .zero⟩, -1, mem, {}⟩

/-- `s_arenas`. -/
def sArenas (s : State) : ℕ := s.sArena.n

/-- The arenas in use. -/
def arenas (s : State) : List OrbisJitArena := s.sArena.toList

end State

/-- What the platform answers while one call of this file runs. -/
structure Platform where
  /-- `orbis_env_get("ORBIS_JIT_ARENA_MB")` as `strtol` reads it, when it is set and not empty. -/
  arenaMb : Option ℤ
  /-- `sceKernelVirtualQuery` with flags 0, by the number of the query and the address asked about:
  `none` for a nonzero return, otherwise the end of the containing mapping. -/
  virtualQuery : ℕ → ℕ → Option ℕ
  /-- `sceKernelAllocateDirectMemory` for a length: the physical offset, or `none` for an error. -/
  allocateDirectMemory : ℕ → Option ℕ
  /-- `sceKernelMapNamedDirectMemory` at an address (`0` lets the kernel choose, any other is
  `MAP_FIXED`) for a length: where it landed, or `none` for an error. -/
  mapNamedDirectMemory : ℕ → ℕ → Option ℕ
  /-- `sceKernelMprotect` to read-write-execute: whether it returned 0. -/
  mprotect : ℕ → ℕ → Bool
  /-- What calling the six stub bytes at an address returned. -/
  callStub : ℕ → ℕ

/-- `orbis_jit_round`. -/
def orbisJitRound (n unit : ℕ) : ℕ := Word64.alignUp n unit

/-- The block length `orbis_jit_alloc` works with: the size rounded up, plus the header unit. -/
def orbisJitBlockLen (size : ℕ) : ℕ :=
  Word64.add (orbisJitRound (if size ≠ 0 then size else 1) orbisJitAlign) orbisJitAlign

/-- The length `orbis_jit_alloc_at` maps: the size rounded up to granules. -/
def orbisJitMapLen (size : ℕ) : ℕ :=
  orbisJitRound (if size ≠ 0 then size else 1) orbisJitGranule

/-- The verdict after one more range: it only ever gets worse. -/
def orbisJitRecord (state : ℤ) (ok : Bool) : ℤ :=
  if state < 0 then (if ok then 1 else 0) else if state ≠ 0 ∧ ok then 1 else 0

/-- `orbis_jit_reachable`. -/
def orbisJitReachable (a len b len2 : ℕ) : Bool :=
  let lo := if a < b then a else b
  let hi := if Word64.add a len > Word64.add b len2 then Word64.add a len else Word64.add b len2
  Word64.sub hi lo < orbisJitReach

/-- `orbis_jit_near_module`, for the anchor address of the module. -/
def orbisJitNearModule (anchor base size : ℕ) : Bool :=
  orbisJitReachable (Word64.sub anchor orbisJitModuleSpan) (2 * orbisJitModuleSpan) base size

/-- `orbis_jit_arena_size`: 16 MiB or what the knob says, and never less than the request. -/
def orbisJitArenaSize (arenaMb : Option ℤ) (atleast : ℕ) : ℕ :=
  let mb := match arenaMb with
    | some v => if 0 < v ∧ v ≤ 512 then v.toNat else 16
    | none => 16
  let want := mb * 1024 * 1024
  orbisJitRound (if atleast > want then atleast else want) orbisJitGranule

end OrbisCompat.Jit
