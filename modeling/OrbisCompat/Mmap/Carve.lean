import OrbisCompat.Mmap.Basic

/-!
# `src/orbis_mmap.cpp`: the functions that run under the lock

`allocInLocked`, `addCarveLocked`, `freeInLocked` and `carveOfLocked`, index by index and `memmove` by
`memmove`.
-/

namespace OrbisCompat.Mmap

/-- `allocInLocked`: the first free block that is long enough, whole when it fits exactly and split
otherwise.  A block that would have to be split is skipped when the table has no slot for the
tail. -/
def allocInLocked (c : Carve) (len : ℕ) : Option (Carve × ℕ) :=
  (c.blk.firstIdx fun b =>
      !(b.used || decide (b.size < len)) && (b.size == len || decide (c.n < MaxBlocks))).map
    fun i =>
      let b := c.blk.slot i
      let p := Word64.add c.va b.off
      if b.size = len then ({ c with blk := c.blk.set i { b with used := true } }, p)
      else
        let t := c.blk.memmove (i + 2) (i + 1) (c.n - i - 1)
        let t := t.set (i + 1) ⟨Word64.add b.off len, Word64.sub b.size len, false⟩
        let t := t.set i ⟨b.off, len, true⟩
        ({ c with blk := t.setLen (c.n + 1) }, p)

/-- `addCarveLocked`: whether a new carve-out was taken; it is then the last of the table. -/
def addCarveLocked (pf : Platform) (s : State) (need : ℕ) : State × Bool :=
  if s.carves ≥ MaxCarves then (s, false)
  else
    let len := alignUp (if need > CarveBytes then need else CarveBytes) DirectAlign
    let held := s.heldBytes
    if Word64.add held len > DirectCap then (s, false)
    else
      match pf.allocateDirectMemory len with
      | none => (s, false)
      | some phys =>
        let k1 := s.kernel.allocateDirectMemory phys len
        match pf.mapDirectMemory len phys with
        | none => ({ s with kernel := k1.releaseDirectMemory phys len }, false)
        | some va =>
          let k2 := k1.mapDirectMemory va len
          if va &&& (Page - 1) ≠ 0 then
            ({ s with kernel := (k2.munmap va len).releaseDirectMemory phys len }, false)
          else
            let c : Carve := ⟨va, phys, len, ⟨1, fun _ => ⟨0, len, false⟩⟩⟩
            ({ s with
                carve := (s.carve.set s.carves c).setLen (s.carves + 1)
                heldBytes := Word64.add held len
                kernel := k2 }, true)

/-- The forward half of the coalescing in `freeInLocked`, at index `lo`. -/
def coalesceNext (t : CTable Block) (lo : ℕ) : CTable Block :=
  if lo + 1 < t.n ∧ (t.slot (lo + 1)).used = false then
    let b := t.slot lo
    let t' := t.set lo { b with size := Word64.add b.size (t.slot (lo + 1)).size }
    (t'.memmove (lo + 1) (lo + 2) (t.n - lo - 2)).setLen (t.n - 1)
  else t

/-- The backward half. -/
def coalescePrev (t : CTable Block) (lo : ℕ) : CTable Block :=
  if 0 < lo ∧ (t.slot (lo - 1)).used = false then
    let b := t.slot (lo - 1)
    let t' := t.set (lo - 1) { b with size := Word64.add b.size (t.slot lo).size }
    (t'.memmove lo (lo + 1) (t.n - lo - 1)).setLen (t.n - 1)
  else t

/-- The block list that `freeInLocked` leaves, or `none` when the range names no live mapping. -/
def freeInLocked (c : Carve) (p len : ℕ) : Option Carve :=
  let off := Word64.sub p c.va
  let lo := c.blk.lowerBound fun b => decide (b.off < off)
  let b := c.blk.slot lo
  if lo ≥ c.n ∨ b.off ≠ off ∨ b.used = false ∨ b.size ≠ len then none
  else
    some { c with
      blk := coalescePrev (coalesceNext (c.blk.set lo { b with used := false }) lo) lo }

/-- `carveOfLocked`: the first carve-out that contains the address. -/
def carveOfLocked (s : State) (p : ℕ) : Option ℕ :=
  s.carve.firstIdx fun c => decide (p ≥ c.va) && decide (p < Word64.add c.va c.size)

end OrbisCompat.Mmap
