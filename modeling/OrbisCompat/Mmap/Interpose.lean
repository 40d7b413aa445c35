import OrbisCompat.Mmap.Carve

/-!
# `src/orbis_mmap.cpp`: the interposition

`__mmap`, `__munmap` and `__madvise` as musl calls them.  Everything that touches the table runs
under the file's lock, so one call is one function of the state.  `direct` is the build flag
`ORBIS_MMAP_DIRECT`.
-/

namespace OrbisCompat.Mmap

/-- `isOwnedRequest`: the one tuple musl's allocator emits. -/
def isOwnedRequest (r : MapRequest) : Bool :=
  r.addr == 0 && r.prot == OwnedProt && r.flags == OwnedFlags && decide (r.fd < 0) && r.off == 0

/-- `allocInLocked(carve[i], len)`; `0` for `nullptr`. -/
def State.allocAt (s : State) (i len : ℕ) : State × ℕ :=
  match allocInLocked (s.carve.slot i) len with
  | none => (s, 0)
  | some (c, p) => ({ s with carve := s.carve.set i c }, p)

/-- The loop of `mapOwned` over the carve-outs, which stops at the first pointer. -/
def mapOwnedScan (want : ℕ) : List ℕ → State → State × ℕ
  | [], s => (s, 0)
  | i :: is, s =>
    match s.allocAt i want with
    | (s', out) => if out ≠ 0 then (s', out) else mapOwnedScan want is s'

/-- The block `mapOwned` finds: in a carve-out it has, or in a new one. -/
def mapOwnedFind (pf : Platform) (s : State) (want : ℕ) : State × ℕ :=
  match mapOwnedScan want (List.range s.carves) s with
  | (s1, out) =>
    if out ≠ 0 then (s1, out)
    else
      match addCarveLocked pf s1 want with
      | (s2, false) => (s2, 0)
      | (s2, true) => s2.allocAt (s2.carves - 1) want

/-- The part of `mapOwned` that runs under the lock. -/
def mapOwnedLocked (pf : Platform) (s : State) (want : ℕ) : State × ℕ :=
  match mapOwnedFind pf s want with
  | (s', out) => if out ≠ 0 then (s'.noteLive want, out) else (s'.noteFallback want, 0)

/-- `mapOwned`: a cleared block of a carve-out, or the platform's `mmap`. -/
def mapOwned (pf : Platform) (s : State) (len : ℕ) : State × Answer ℕ :=
  let want := alignUp len Page
  match mapOwnedLocked pf s want with
  | (s', out) =>
    if out ≠ 0 then ({ s' with mem := s'.mem.memset out 0 want }, ⟨out, true⟩)
    else (s', ⟨pf.mmap ⟨0, len, OwnedProt, OwnedFlags, -1, 0⟩, false⟩)

/-- `__mmap`. -/
def mmap (direct : Bool) (pf : Platform) (s : State) (r : MapRequest) : State × Answer ℕ :=
  let s := { s with mmapCalls := bump s.mmapCalls 1 }
  if isOwnedRequest r && direct then
    mapOwned pf { s with mmapCarved := bump s.mmapCarved 1 } r.len
  else ({ s with mmapFell := bump s.mmapFell 1 }, ⟨pf.mmap r, false⟩)

/-- `__munmap`. -/
def munmap (pf : Platform) (s : State) (addr len : ℕ) : State × Answer ℤ :=
  let s := { s with munmapCalls := bump s.munmapCalls 1 }
  match carveOfLocked s addr with
  | none => ({ s with munmapFell := bump s.munmapFell 1 }, ⟨pf.munmap addr len, false⟩)
  | some i =>
    let want := alignUp len Page
    match freeInLocked (s.carve.slot i) addr want with
    | none => ({ s with anomalies := bump s.anomalies 1, errno := EINVAL }, ⟨-1, true⟩)
    | some c =>
      ({ s with
          carve := s.carve.set i c
          liveBytes := Word64.sub s.liveBytes want
          unmapCalls := bump s.unmapCalls 1
          munmapCarved := bump s.munmapCarved 1 }, ⟨0, true⟩)

/-- `__madvise`. -/
def madvise (pf : Platform) (s : State) (addr len : ℕ) (advice : ℤ) : Answer ℤ :=
  match carveOfLocked s addr with
  | none => ⟨pf.madvise addr len advice, false⟩
  | some _ => ⟨0, true⟩

end OrbisCompat.Mmap
