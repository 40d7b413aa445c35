import OrbisCompat.Lib.Extent

/-!
# Direct memory, as the kernel holds it

The console hands out memory in two steps: `sceKernelAllocateDirectMemory` reserves physical pages
and answers an offset, and `sceKernelMapDirectMemory` / `sceKernelMapNamedDirectMemory` maps them at
an address.  They are given back by the two matching handles.  `Holdings` is what one file has been
given and has not given back; the calls themselves are the platform's and enter as parameters.
-/

namespace OrbisCompat

/-- What the kernel holds on behalf of one file. -/
structure Holdings where
  /-- Allocations, by physical offset and length. -/
  direct : List Extent := []
  /-- Mappings, by address and length. -/
  mapped : List Extent := []
  deriving DecidableEq, Repr

namespace Holdings

/-- A granted `sceKernelAllocateDirectMemory`. -/
def allocateDirectMemory (h : Holdings) (phys len : ℕ) : Holdings :=
  { h with direct := ⟨phys, len⟩ :: h.direct }

/-- A granted `sceKernelMap(Named)DirectMemory`. -/
def mapDirectMemory (h : Holdings) (va len : ℕ) : Holdings :=
  { h with mapped := ⟨va, len⟩ :: h.mapped }

/-- `sceKernelMunmap(va, len)`. -/
def munmap (h : Holdings) (va len : ℕ) : Holdings :=
  { h with mapped := h.mapped.erase ⟨va, len⟩ }

/-- `sceKernelReleaseDirectMemory(phys, len)`. -/
def releaseDirectMemory (h : Holdings) (phys len : ℕ) : Holdings :=
  { h with direct := h.direct.erase ⟨phys, len⟩ }

@[simp] theorem releaseDirectMemory_allocate (h : Holdings) (phys len : ℕ) :
    (h.allocateDirectMemory phys len).releaseDirectMemory phys len = h := by
  simp [allocateDirectMemory, releaseDirectMemory]

@[simp] theorem munmap_mapDirectMemory (h : Holdings) (va len : ℕ) :
    (h.mapDirectMemory va len).munmap va len = h := by
  simp [mapDirectMemory, munmap]

@[simp] theorem releaseDirectMemory_map (h : Holdings) (va len phys n : ℕ) :
    (h.mapDirectMemory va len).releaseDirectMemory phys n
      = (h.releaseDirectMemory phys n).mapDirectMemory va len := rfl

end Holdings

/-- One past the last address a process can map: the user half of the x86-64 address space. -/
def userEnd : ℕ := 2 ^ 47

end OrbisCompat
