import OrbisCompat.Lib.Lts
import OrbisCompat.Umtx.Basic

/-!
# `include/sys/umtx.h`: the waiter register

A thread that goes to sleep in `WAIT` claims the first free slot of a table and gives it back when it wakes up;
the driver's watchdog counts the occupied slots and walks over them.  A thread that finds no free slot sleeps
without one.

Here a claim and a release are one step each, and so is a query.
-/

namespace OrbisCompat.Umtx

/-- What `pthread_self` returns: the address of a thread, so not `0`. -/
abbrev ThreadId := {t : UInt64 // t ≠ 0}

/-- `struct orbis_umtx_waiter`. -/
structure Entry where
  /-- `0` when the slot is free. -/
  thread : UInt64 := 0
  addr : Addr := 0
  sinceNs : UInt64 := 0
  deriving DecidableEq, Repr

/-- `orbis_umtx_waiters`. -/
abbrev Register := WaiterId → Entry

namespace Register

/-- Somebody has the slot. -/
def occupied (T : Register) (k : WaiterId) : Bool := (T k).thread != 0

def set (T : Register) (k : WaiterId) (x : Entry) : Register := fun j => if j = k then x else T j

/-- `orbis_umtx_waiter_claim`, with the thread that calls and the time. -/
def claim (T : Register) (me : ThreadId) (addr : Addr) (now : UInt64) : Register × Option WaiterId :=
  match (List.finRange waiters).find? fun k => !T.occupied k with
  | some k => (T.set k ⟨me, addr, now⟩, some k)
  | none => (T, none)

/-- `orbis_umtx_waiter_release`. -/
def release (T : Register) : Option WaiterId → Register
  | some k => T.set k { T k with thread := 0 }
  | none => T

/-- `orbis_umtx_waiter_count`. -/
def count (T : Register) : ℕ := (List.finRange waiters).countP T.occupied

/-- The loop of `orbis_umtx_waiter_at`, past `seen` occupied slots. -/
def walk (T : Register) (i : ℤ) : List WaiterId → ℤ → Option WaiterId
  | [], _ => none
  | k :: ks, seen =>
    if T.occupied k = false then walk T i ks seen
    else if seen ≠ i then walk T i ks (seen + 1)
    else some k

/-- The slot that `orbis_umtx_waiter_at` answers from. -/
def slotAt (T : Register) (i : ℤ) : Option WaiterId := walk T i (List.finRange waiters) 0

/-- `orbis_umtx_waiter_at`: what it stores, or nothing when it returns `0`. -/
def waiterAt (T : Register) (i : ℤ) : Option Entry := (T.slotAt i).map T

end Register

/-- A thread between its claim and its release. -/
structure Sleeper where
  thread : ThreadId
  addr : Addr
  /-- `reg`. -/
  reg : Option WaiterId
  deriving DecidableEq

/-- The register and the threads that are asleep. -/
structure Sleeping where
  register : Register
  asleep : List Sleeper

namespace Sleeping

/-- Before the first call. -/
def init : Sleeping := ⟨fun _ => {}, []⟩

/-- A step of a thread, or a query of the watchdog. -/
inductive Label
  /-- `WAIT`: the thread claims a slot. -/
  | claim (me : ThreadId) (addr : Addr) (now : UInt64)
  /-- `WAIT`: the thread is awake again and gives its slot back. -/
  | release (me : ThreadId)
  /-- `orbis_umtx_waiter_count`. -/
  | count
  /-- `orbis_umtx_waiter_at`. -/
  | waiterAt (i : ℤ)
  deriving DecidableEq

/-- One step.  A thread sleeps in one call at a time. -/
def step (s : Sleeping) : Label → Option Sleeping
  | .claim me addr now =>
    if s.asleep.any fun x => x.thread = me then none
    else
      let r := s.register.claim me addr now
      some ⟨r.1, ⟨me, addr, r.2⟩ :: s.asleep⟩
  | .release me =>
    (s.asleep.find? fun x => x.thread = me).map fun x =>
      ⟨s.register.release x.reg, s.asleep.filter fun y => y.thread ≠ me⟩
  | .count | .waiterAt _ => some s

/-- Runs from the first call on. -/
def Reaches (ls : List Label) (s : Sleeping) : Prop := Lts.Run (Lts.Next step) init ls s

end Sleeping

end OrbisCompat.Umtx
