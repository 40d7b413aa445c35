import OrbisCompat.Jit.FreeList
import OrbisCompat.Jit.Search

/-!
# `src/orbis_jit.c`: arena creation and the interface

Every entry point runs under the file's spin lock, so one call is one function of the state.  A call
is `none` when its address search never ends; otherwise it is the new state and the pointer
returned, `0` for `NULL`.
-/

namespace OrbisCompat.Jit

/-- The bytes `orbis_jit_verify` writes and calls: `mov eax, 0x00c0ffee; ret`. -/
def orbisJitStub : List UInt8 := [0xb8, 0xee, 0xff, 0xc0, 0x00, 0xc3]

/-- `orbis_jit_map`: direct memory, mapped read-write, promoted, and proved to run.  On success the
three fields it writes into the arena: base, size and physical offset. -/
def orbisJitMap (pf : Platform) (s : State) (at' len : ℕ) : State × Option (ℕ × ℕ × ℕ) :=
  match pf.allocateDirectMemory len with
  | none => (s, none)
  | some phys =>
    let k1 := s.kernel.allocateDirectMemory phys len
    match pf.mapNamedDirectMemory at' len with
    | none => ({ s with kernel := k1.releaseDirectMemory phys len }, none)
    | some got =>
      let k2 := k1.mapDirectMemory got len
      let undone := (k2.munmap got len).releaseDirectMemory phys len
      if got = 0 then
        -- `!got`: a mapping at `NULL` is refused, and nothing is unmapped
        ({ s with kernel := k2.releaseDirectMemory phys len }, none)
      else if at' ≠ 0 ∧ got ≠ at' then ({ s with kernel := undone }, none)
      else if pf.mprotect got len = false then
        ({ s with kernel := undone, sState := orbisJitRecord s.sState false }, none)
      else
        let mem := s.mem.store got orbisJitStub
        if pf.callStub got ≠ 0x00c0ffee then
          ({ s with kernel := undone, mem := mem, sState := orbisJitRecord s.sState false }, none)
        else
          ({ s with kernel := k2, mem := mem, sState := orbisJitRecord s.sState true },
            some (got, len, phys))

/-- The address of `orbis_jit_grow`'s mapping: `0` lets the kernel choose, and `ORBIS_JIT_NEAR_TEXT`
searches above the module first and then below it.  The inner `none` is a search that found
nothing. -/
def orbisJitPlace (anchor : ℕ) (pf : Platform) (len flags : ℕ) : Option (Option ℕ) :=
  if flags &&& orbisJitNearText ≠ 0 then do
    let above ← orbisJitFindFree pf.virtualQuery (Word64.add anchor orbisJitModuleSpan)
      (Word64.add anchor orbisJitWindow) len
    if above ≠ 0 then return some above
    let below ← orbisJitFindFree pf.virtualQuery (Word64.sub anchor orbisJitWindow)
      (Word64.sub anchor orbisJitModuleSpan) len
    return if below ≠ 0 then some below else none
  else some (some 0)

/-- The table entry `orbis_jit_grow` fills in: one span, all of it free. -/
def orbisJitFresh (base size phys : ℕ) : OrbisJitArena :=
  ⟨base, size, phys, false, ⟨1, fun _ => ⟨base, size⟩⟩⟩

/-- `orbis_jit_grow`: whether a new arena was taken; it is then the last of the table. -/
def orbisJitGrow (anchor : ℕ) (pf : Platform) (s : State) (atleast flags : ℕ) :
    Option (State × Bool) :=
  if s.sArenas ≥ orbisJitMaxArenas then some (s, false)
  else
    let len := orbisJitArenaSize pf.arenaMb atleast
    (orbisJitPlace anchor pf len flags).map fun
      | none => (s, false)
      | some at' =>
        match orbisJitMap pf s at' len with
        | (s', none) => (s', false)
        | (s', some (base, size, phys)) =>
          ({ s' with sArena :=
              (s'.sArena.set s'.sArenas (orbisJitFresh base size phys)).setLen (s'.sArenas + 1) },
            true)

/-- Whether the loop of `orbis_jit_alloc` asks this arena at all. -/
def orbisJitServes (anchor flags : ℕ) (a : OrbisJitArena) : Bool :=
  !a.dedicated && (flags &&& orbisJitNearText == 0 || orbisJitNearModule anchor a.base a.size)

/-- Take `len` from the arena at index `i`. -/
def State.takeAt (s : State) (i len : ℕ) : Option (State × ℕ) :=
  (orbisJitTake (s.sArena.slot i) len).map fun (a, p) => ({ s with sArena := s.sArena.set i a }, p)

/-- The loop of `orbis_jit_alloc` over the arenas: the first that serves the request and has room. -/
def orbisJitScan (anchor : ℕ) (s : State) (len flags : ℕ) : Option (State × ℕ) :=
  (s.sArena.firstIdx fun a => orbisJitServes anchor flags a && (orbisJitTake a len).isSome).bind
    fun i => s.takeAt i len

/-- Write the header and step over it. -/
def orbisJitHeader (s : State) (p len : ℕ) : State × ℕ :=
  ({ s with mem := s.mem.store64 p len }, Word64.add p orbisJitAlign)

/-- `orbis_jit_alloc`. -/
def orbisJitAlloc (anchor : ℕ) (pf : Platform) (s : State) (size flags : ℕ) : Option (State × ℕ) :=
  let len := orbisJitBlockLen size
  match orbisJitScan anchor s len flags with
  | some (s', p) => some (orbisJitHeader s' p len)
  | none =>
    (orbisJitGrow anchor pf s len flags).map fun
      | (s', false) => (s', 0)
      | (s', true) =>
        match s'.takeAt (s'.sArenas - 1) len with
        | some (s'', p) => orbisJitHeader s'' p len
        | none => (s', 0)

/-- `orbis_jit_alloc_at`. -/
def orbisJitAllocAt (pf : Platform) (s : State) (addr size : ℕ) : Option (State × ℕ) :=
  let len := orbisJitMapLen size
  if addr = 0 ∨ addr &&& (orbisJitGranule - 1) ≠ 0 then some (s, 0)
  else if s.sArenas ≥ orbisJitMaxArenas then some (s, 0)
  else
    (orbisJitFindFree pf.virtualQuery addr (Word64.add addr len) len).map fun found =>
      if found = 0 then (s, 0)
      else
        match orbisJitMap pf s addr len with
        | (s', none) => (s', 0)
        | (s', some (base, size', phys)) =>
          -- the other fields of a free slot are zero: compaction and release clear what they vacate
          let a : OrbisJitArena := { OrbisJitArena.zero with base, size := size', phys, dedicated := true }
          ({ s' with sArena := (s'.sArena.set s'.sArenas a).setLen (s'.sArenas + 1) }, base)

/-- The arena an address lies in, as `orbis_jit_free` looks for it. -/
def orbisJitArenaOf (s : State) (addr : ℕ) : Option ℕ :=
  s.sArena.firstIdx fun a => !(addr < a.base || addr ≥ Word64.add a.base a.size)

/-- Unmap and release the arena at index `i`, and compact the table over it. -/
def State.dropArena (s : State) (i : ℕ) : State :=
  let a := s.sArena.slot i
  let t := (s.sArena.memmove i (i + 1) (s.sArenas - i - 1)).setLen (s.sArenas - 1)
  { s with
    sArena := t.set t.n .zero
    kernel := (s.kernel.munmap a.base a.size).releaseDirectMemory a.phys a.size }

/-- Whether a header length is one `orbis_jit_alloc` can have written into this arena. -/
def orbisJitHeaderOk (a : OrbisJitArena) (blk len : ℕ) : Bool :=
  !(len < 2 * orbisJitAlign || len &&& (orbisJitAlign - 1) != 0 ||
    Word64.add blk len > Word64.add a.base a.size)

/-- `orbis_jit_free`. -/
def orbisJitFree (s : State) (addr : ℕ) : State :=
  if addr = 0 then s
  else
    match orbisJitArenaOf s addr with
    | none => s
    | some i =>
      let a := s.sArena.slot i
      if a.dedicated then
        if addr ≠ a.base then s else s.dropArena i
      else
        let blk := Word64.sub addr orbisJitAlign
        let len := s.mem.load64 blk
        if orbisJitHeaderOk a blk len then
          { s with sArena := s.sArena.set i (orbisJitGive a blk len) }
        else s

/-- `orbis_jit_release_all`. -/
def orbisJitReleaseAll (s : State) : State :=
  let kernel := s.arenas.foldl
    (fun k a => (k.munmap a.base a.size).releaseDirectMemory a.phys a.size) s.kernel
  { s with sArena := ⟨0, fun _ => .zero⟩, kernel := kernel }

end OrbisCompat.Jit
