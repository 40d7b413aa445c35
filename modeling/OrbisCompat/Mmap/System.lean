import OrbisCompat.Lib.Lts
import OrbisCompat.Mmap.Interpose

/-!
# The interposer and the allocator above it

The file as its callers see it: calls of `__mmap`, `__munmap` and `__madvise` in any order and with
any arguments, and any answers of the platform.  A `World` is the state of the file with the record
of the mappings that were served from carve-outs and not yet unmapped.

`Platform.Documented` is what the code relies on in the platform's answers.
-/

namespace OrbisCompat.Mmap

/-- A mapping that was served from a carve-out, with the length it was requested for. -/
structure Mapping where
  ptr : ℕ
  len : ℕ
  deriving DecidableEq, Repr

/-- The addresses of a mapping, in whole pages. -/
def Mapping.extent (m : Mapping) : Extent := ⟨m.ptr, alignUp m.len Page⟩

structure World where
  st : State
  live : List Mapping

/-- Before the first call. -/
def World.init (mem : FlatMem) : World := ⟨.init mem, []⟩

/-- What the platform documents of its answers, for a process with these carve-outs.  Direct memory
of length zero is refused; a mapping lies in the user half of the address space, not at `NULL`, and
is disjoint from what is mapped already. -/
structure Platform.Documented (pf : Platform) (cs : List Carve) : Prop where
  allocate_zero : pf.allocateDirectMemory 0 = none
  map_user : ∀ len phys va, pf.mapDirectMemory len phys = some va → 0 < va ∧ va + len ≤ userEnd
  map_fresh : ∀ len phys va, pf.mapDirectMemory len phys = some va →
    ∀ c ∈ cs, Extent.Apart ⟨va, len⟩ c.extent

inductive Call
  | mmap (r : MapRequest)
  | munmap (addr len : ℕ)
  | madvise (addr len : ℕ) (advice : ℤ)
  deriving DecidableEq, Repr

/-- Record a mapping that was served from a carve-out. -/
def World.mapped (w : World) (len : ℕ) : State × Answer ℕ → World
  | (s, a) => ⟨s, if a.carved then ⟨a.value, len⟩ :: w.live else w.live⟩

/-- Drop the mapping at an address that was unmapped out of a carve-out. -/
def World.unmapped (w : World) (addr : ℕ) : State × Answer ℤ → World
  | (s, a) =>
    ⟨s, if a.carved && a.value == 0 then w.live.eraseP fun m => m.ptr == addr else w.live⟩

/-- One call, with any documented answers of the platform. -/
inductive Step (direct : Bool) : World → Call → World → Prop
  | mmap {w : World} {r : MapRequest} (pf : Platform) (hpf : pf.Documented w.st.carveList)
      (hlen : r.len < 2 ^ 64) :
      Step direct w (.mmap r) (w.mapped r.len (mmap direct pf w.st r))
  | munmap {w : World} {addr len : ℕ} (pf : Platform) (haddr : addr < 2 ^ 64)
      (hlen : len < 2 ^ 64) :
      Step direct w (.munmap addr len) (w.unmapped addr (munmap pf w.st addr len))
  | madvise {w : World} {addr len : ℕ} {advice : ℤ} : Step direct w (.madvise addr len advice) w

/-- The owned requests are for at least one byte and at most `n`. -/
def Call.LenWithin (n : ℕ) : Call → Prop
  | .mmap r => isOwnedRequest r = true → 1 ≤ r.len ∧ r.len ≤ n
  | _ => True

/-- Runs from the first call on in which every call satisfies `ok`. -/
def Reaches (direct : Bool) (ok : Call → Prop) (mem : FlatMem) (cs : List Call) (w : World) :
    Prop :=
  Lts.Run (Lts.Guarded (fun _ c => ok c) (Step direct)) (World.init mem) cs w

end OrbisCompat.Mmap
