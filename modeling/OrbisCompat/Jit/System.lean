import OrbisCompat.Jit.Arena
import OrbisCompat.Lib.Lts

/-!
# The suballocator and its clients

The file as its clients see it: calls of the four entry points in any order, with any answers of the
platform, and writes of the clients to memory in between.  A `World` is the state of the file with
the record of what has been handed out and not yet given back, and of the blocks whose free found
the list full.

`Platform.Documented` is what the code relies on in the platform's answers.
-/

namespace OrbisCompat.Jit

/-- A pointer that was returned and not yet freed, with the size it was requested for. -/
structure Handout where
  ptr : ℕ
  size : ℕ
  /-- Whether it is from `orbis_jit_alloc_at`. -/
  dedicated : Bool
  deriving DecidableEq, Repr

/-- What the pointer's owner has been given: the header unit and the payload, or a whole arena. -/
def Handout.extent (h : Handout) : Extent :=
  if h.dedicated then ⟨h.ptr, orbisJitMapLen h.size⟩
  else ⟨h.ptr - orbisJitAlign, orbisJitBlockLen h.size⟩

structure World where
  st : State
  live : List Handout
  /-- Blocks that were freed while the list of their arena was full. -/
  dropped : List Extent

/-- Before the first call. -/
def World.init (mem : FlatMem) : World := ⟨.init mem, [], []⟩

/-- What the platform documents of its answers, for a process with these arenas.
`sceKernelVirtualQuery` answers for every address of a mapping, and mappings lie in the user half of
the address space.  Direct memory of length zero is refused.  A mapping starts on the alignment
asked for, not at `NULL`, and unless it is `MAP_FIXED` at the address asked for it is disjoint from
what is mapped already. -/
structure Platform.Documented (pf : Platform) (arenas : List OrbisJitArena) : Prop where
  query_mapped : ∀ k x, (∃ a ∈ arenas, x ∈ a.extent) → pf.virtualQuery k x ≠ none
  query_end : ∀ k x e, pf.virtualQuery k x = some e → e ≤ userEnd
  allocate_zero : pf.allocateDirectMemory 0 = none
  map_user : ∀ at' len got, pf.mapNamedDirectMemory at' len = some got →
    0 < got ∧ orbisJitGranule ∣ got ∧ got + len ≤ userEnd
  map_fresh : ∀ at' len got, pf.mapNamedDirectMemory at' len = some got → at' = 0 ∨ got ≠ at' →
    ∀ a ∈ arenas, Extent.Apart ⟨got, len⟩ a.extent

/-- A call of the file, or a write of a client. -/
inductive Call
  | alloc (size flags : ℕ)
  | allocAt (addr size : ℕ)
  | free (addr : ℕ)
  | releaseAll
  | write
  deriving DecidableEq, Repr

/-- Whether freeing this address finds the list of its arena full. -/
def orbisJitDropsAt (s : State) (addr : ℕ) : Bool :=
  match orbisJitArenaOf s addr with
  | none => false
  | some i => !(s.sArena.slot i).dedicated && decide (orbisJitMaxSpans ≤ (s.sArena.slot i).nspans)

/-- Record a returned pointer. -/
def World.handOut (w : World) (s : State) (h : Handout) : World :=
  { w with st := s, live := if h.ptr = 0 then w.live else h :: w.live }

/-- Free a live pointer. -/
def World.giveBack (w : World) (h : Handout) : World where
  st := orbisJitFree w.st h.ptr
  live := w.live.erase h
  dropped := if orbisJitDropsAt w.st h.ptr then h.extent :: w.dropped else w.dropped

/-- One call.  Freed pointers are live, and clients keep off the header units of live blocks. -/
inductive Step (anchor : ℕ) : World → Call → World → Prop
  | alloc {w : World} {s : State} {size flags p : ℕ} (pf : Platform)
      (hpf : pf.Documented w.st.arenas) (hsize : size < 2 ^ 64)
      (h : orbisJitAlloc anchor pf w.st size flags = some (s, p)) :
      Step anchor w (.alloc size flags) (w.handOut s ⟨p, size, false⟩)
  | allocAt {w : World} {s : State} {addr size p : ℕ} (pf : Platform)
      (hpf : pf.Documented w.st.arenas) (hsize : size < 2 ^ 64)
      (h : orbisJitAllocAt pf w.st addr size = some (s, p)) :
      Step anchor w (.allocAt addr size) (w.handOut s ⟨p, size, true⟩)
  | free {w : World} {h : Handout} (hlive : h ∈ w.live) :
      Step anchor w (.free h.ptr) (w.giveBack h)
  | releaseAll {w : World} : Step anchor w .releaseAll ⟨orbisJitReleaseAll w.st, [], []⟩
  | write {w : World} (mem : FlatMem)
      (h : ∀ b ∈ w.live, b.dedicated = false →
        ∀ x, b.ptr - orbisJitAlign ≤ x → x < b.ptr → mem x = w.st.mem x) :
      Step anchor w .write { w with st := { w.st with mem := mem } }

/-- The sizes requested of `orbis_jit_alloc` are at most `n`. -/
def Call.AllocAtMost (n : ℕ) : Call → Prop
  | .alloc size _ => size ≤ n
  | _ => True

/-- The sizes requested of either allocator are at most `n`. -/
def Call.SizeAtMost (n : ℕ) : Call → Prop
  | .alloc size _ => size ≤ n
  | .allocAt _ size => size ≤ n
  | _ => True

/-- Runs from the first call on in which every call satisfies `ok`. -/
def Reaches (anchor : ℕ) (ok : Call → Prop) (mem : FlatMem) (cs : List Call) (w : World) : Prop :=
  Lts.Run (Lts.Guarded (fun _ c => ok c) (Step anchor)) (World.init mem) cs w

end OrbisCompat.Jit
