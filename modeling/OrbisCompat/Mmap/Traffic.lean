import OrbisCompat.Mmap.Describe

/-!
# The traffic behind `orbis_mmap_counts`

A call is answered out of a carve-out, by the platform, or, when it unmaps what is not mapped, by neither.
`Traffic` tallies the answers of a run beside the state of the file, and `TrafficWorld.Counts` says that the
counters of the file tell them apart.

What decides how an owned request is answered is the state before it and what the platform grants:
`State.Room`.
-/

namespace OrbisCompat.Mmap

/-- The answers so far: from a carve-out, and from the platform. -/
structure Traffic where
  mapsCarved : ℕ := 0
  mapsFell : ℕ := 0
  unmapsCarved : ℕ := 0
  unmapsFell : ℕ := 0
  deriving DecidableEq, Repr

/-- An answer of `__mmap`. -/
def Traffic.mapped (t : Traffic) (a : Answer ℕ) : Traffic :=
  if a.carved then { t with mapsCarved := t.mapsCarved + 1 }
  else { t with mapsFell := t.mapsFell + 1 }

/-- An answer of `__munmap`; a refused one is from neither. -/
def Traffic.unmapped (t : Traffic) (a : Answer ℤ) : Traffic :=
  if a.carved then
    if a.value = 0 then { t with unmapsCarved := t.unmapsCarved + 1 } else t
  else { t with unmapsFell := t.unmapsFell + 1 }

structure TrafficWorld where
  st : State
  traffic : Traffic

/-- Before the first call. -/
def TrafficWorld.init (mem : FlatMem) : TrafficWorld := ⟨.init mem, {}⟩

/-- A call, with what the platform answers while it runs. -/
structure PlatformCall where
  pf : Platform
  call : Call

/-- One call. -/
inductive TrafficStep (direct : Bool) : TrafficWorld → PlatformCall → TrafficWorld → Prop
  | mmap {w : TrafficWorld} {pf : Platform} {r : MapRequest}
      (hpf : pf.Documented w.st.carveList) (hlen : r.len < 2 ^ 64) :
      TrafficStep direct w ⟨pf, .mmap r⟩
        ⟨(mmap direct pf w.st r).1, w.traffic.mapped (mmap direct pf w.st r).2⟩
  | munmap {w : TrafficWorld} {pf : Platform} {addr len : ℕ} (haddr : addr < 2 ^ 64)
      (hlen : len < 2 ^ 64) :
      TrafficStep direct w ⟨pf, .munmap addr len⟩
        ⟨(munmap pf w.st addr len).1, w.traffic.unmapped (munmap pf w.st addr len).2⟩
  | madvise {w : TrafficWorld} {pf : Platform} {addr len : ℕ} {advice : ℤ} :
      TrafficStep direct w ⟨pf, .madvise addr len advice⟩ w

/-- The counters, of 64 bits each, tell the traffic. -/
structure TrafficWorld.Counts (w : TrafficWorld) : Prop where
  maps : (orbisMmapCounts w.st).maps = (w.traffic.mapsCarved + w.traffic.mapsFell) % 2 ^ 64
  mapsCarved : (orbisMmapCounts w.st).mapsCarved = w.traffic.mapsCarved % 2 ^ 64
  mapsFell : (orbisMmapCounts w.st).mapsFell = w.traffic.mapsFell % 2 ^ 64
  unmapsCarved : (orbisMmapCounts w.st).unmapsCarved = w.traffic.unmapsCarved % 2 ^ 64
  unmapsFell : (orbisMmapCounts w.st).unmapsFell = w.traffic.unmapsFell % 2 ^ 64

/-! ### When an owned request finds a block -/

/-- A free block that is long enough, and a slot for the tail when there is one. -/
def Carve.Fits (c : Carve) (want : ℕ) : Prop :=
  ∃ b ∈ c.blocks, b.used = false ∧ want ≤ b.size ∧ (b.size = want ∨ c.n < MaxBlocks)

/-- The length of the carve-out that `addCarveLocked` takes. -/
def carveLen (need : ℕ) : ℕ := alignUp (if need > CarveBytes then need else CarveBytes) DirectAlign

/-- The table and the cap leave room for one more carve-out, and the platform grants it. -/
def State.CanAdd (pf : Platform) (s : State) (want : ℕ) : Prop :=
  s.carves < MaxCarves ∧ Word64.add s.heldBytes (carveLen want) ≤ DirectCap ∧
    ∃ phys va, pf.allocateDirectMemory (carveLen want) = some phys ∧
      pf.mapDirectMemory (carveLen want) phys = some va ∧ Page ∣ va

/-- A carve-out has a block for `want` bytes, or can be taken. -/
def State.Room (pf : Platform) (s : State) (want : ℕ) : Prop :=
  (∃ c ∈ s.carveList, c.Fits want) ∨ s.CanAdd pf want

/-- An owned request has room. -/
def PlatformCall.HasRoom (direct : Bool) (w : TrafficWorld) (l : PlatformCall) : Prop :=
  match l.call with
  | .mmap r => isOwnedRequest r = true → direct = true → w.st.Room l.pf (alignUp r.len Page)
  | _ => True

end OrbisCompat.Mmap
