import OrbisCompat.Jit.System

/-!
# The suballocator among careless clients

`Step` is the file with clients that free what they own and keep off the headers.  `LooseStep` promises
nothing of the clients: any address may be passed to `orbis_jit_free`, and memory may change in any way
between two calls.  What is left of the arenas then is their `Site`, all of it but the free list.

`FreshDirect` is what the kernel documents of the physical offsets it answers.
-/

namespace OrbisCompat.Jit

/-- `[phys, phys + size)`: the direct memory behind an arena. -/
def OrbisJitArena.direct (a : OrbisJitArena) : Extent := ⟨a.phys, a.size⟩

/-- An arena without its free list. -/
structure Site where
  extent : Extent
  direct : Extent
  dedicated : Bool
  deriving DecidableEq, Repr

def OrbisJitArena.site (a : OrbisJitArena) : Site := ⟨a.extent, a.direct, a.dedicated⟩

def State.sites (s : State) : List Site := s.arenas.map OrbisJitArena.site

/-- Direct memory that is allocated is apart from what is allocated already. -/
def Platform.FreshDirect (pf : Platform) (k : Holdings) : Prop :=
  ∀ len phys, pf.allocateDirectMemory len = some phys → ∀ e ∈ k.direct, Extent.Apart ⟨phys, len⟩ e

/-- The state of the file, and every pointer that it has returned. -/
structure LooseWorld where
  st : State
  returned : List ℕ

/-- Before the first call. -/
def LooseWorld.init (mem : FlatMem) : LooseWorld := ⟨.init mem, []⟩

/-- Record a returned pointer. -/
def LooseWorld.record (w : LooseWorld) (s : State) (p : ℕ) : LooseWorld :=
  ⟨s, if p = 0 then w.returned else p :: w.returned⟩

/-- One call, or a change of memory. -/
inductive LooseStep (anchor : ℕ) : LooseWorld → Call → LooseWorld → Prop
  | alloc {w : LooseWorld} {s : State} {size flags p : ℕ} (pf : Platform)
      (hpf : pf.Documented w.st.arenas) (hnew : pf.FreshDirect w.st.kernel) (hsize : size < 2 ^ 64)
      (h : orbisJitAlloc anchor pf w.st size flags = some (s, p)) :
      LooseStep anchor w (.alloc size flags) (w.record s p)
  | allocAt {w : LooseWorld} {s : State} {addr size p : ℕ} (pf : Platform)
      (hpf : pf.Documented w.st.arenas) (hnew : pf.FreshDirect w.st.kernel) (hsize : size < 2 ^ 64)
      (h : orbisJitAllocAt pf w.st addr size = some (s, p)) :
      LooseStep anchor w (.allocAt addr size) (w.record s p)
  | free {w : LooseWorld} (addr : ℕ) :
      LooseStep anchor w (.free addr) { w with st := orbisJitFree w.st addr }
  | releaseAll {w : LooseWorld} :
      LooseStep anchor w .releaseAll { w with st := orbisJitReleaseAll w.st }
  | write {w : LooseWorld} (mem : FlatMem) :
      LooseStep anchor w .write { w with st := { w.st with mem := mem } }

/-- Runs from the first call on. -/
def LooseReaches (anchor : ℕ) (mem : FlatMem) (cs : List Call) (w : LooseWorld) : Prop :=
  Lts.Run (LooseStep anchor) (LooseWorld.init mem) cs w

end OrbisCompat.Jit
