import Mathlib.Data.Fintype.Basic
import Mathlib.Tactic.Simps.Basic

/-!
# `src/orbis_cxa_guard.c`: the guards, the owner table and the critical sections

A guard is the flag of a function-local static of C++.  Everything in the file happens with `s_mutex`
held, so each critical section is a function of the guards and of the owner table: one turn of the loop
of `__cxa_guard_acquire` (`Memory.acquireLocked`), and those of `__cxa_guard_release` and
`__cxa_guard_abort` (`Memory.releaseLocked`, `Memory.abortLocked`).

Of a guard's eight bytes the first says that the static is initialized, and two bits of the second are
`FLAG_PENDING` and `FLAG_WAITING`.  The text of the report is not modelled.
-/

namespace OrbisCompat.CxaGuard

/-- The address of a guard. -/
abbrev Guard := ℕ

/-- The two bytes of a guard that the file uses.  Static storage starts as zeros. -/
structure GuardBytes where
  /-- `GUARD_DONE_BYTE` is not zero. -/
  done : Bool := false
  /-- `FLAG_PENDING` of `GUARD_FLAG_BYTE`. -/
  pending : Bool := false
  /-- `FLAG_WAITING` of `GUARD_FLAG_BYTE`. -/
  waiting : Bool := false
  deriving DecidableEq, Repr

/-- `OWNERS`. -/
abbrev owners : ℕ := 64

/-- An entry of `s_owners`, with `none` for a null guard. -/
structure Entry where
  guard : Option Guard := none
  owner : ℕ := 0
  deriving DecidableEq, Repr

/-- `s_owners`. -/
abbrev Owners := Fin owners → Entry

namespace Owners

/-- The loops of the three functions: the first entry of which `p` holds. -/
def first (o : Owners) (p : Entry → Bool) : Option (Fin owners) :=
  (List.finRange owners).find? fun i => p (o i)

def set (o : Owners) (i : Fin owners) (e : Entry) : Owners := fun j => if j = i then e else o j

/-- `owner_set`. -/
def ownerSet (o : Owners) (guard : Guard) (owner : ℕ) : Owners :=
  match o.first fun e => e.guard.isNone with
  | some i => o.set i ⟨some guard, owner⟩
  | none => o

/-- `owner_clear`. -/
def ownerClear (o : Owners) (guard : Guard) : Owners :=
  match o.first fun e => e.guard == some guard with
  | some i => o.set i ⟨none, 0⟩
  | none => o

/-- `owner_is_self`. -/
def ownerIsSelf (o : Owners) (guard : Guard) (self : ℕ) : Bool :=
  if self = 0 then false
  else
    match o.first fun e => e.guard == some guard with
    | some i => (o i).owner == self
    | none => false

end Owners

/-- What `s_mutex` protects. -/
structure Memory where
  guard : Guard → GuardBytes := fun _ => {}
  owners : Owners := fun _ => {}

/-- How one turn of the loop of `__cxa_guard_acquire` ends. -/
inductive Turn
  /-- It returns `0`. -/
  | initialized
  /-- It returns `1`. -/
  | mine
  /-- It calls `guard_recursion_abort`. -/
  | recursion
  /-- It waits on `s_cond`. -/
  | wait
  deriving DecidableEq, Repr

namespace Memory

def setGuard (m : Memory) (g : Guard) (b : GuardBytes) : Memory :=
  { m with guard := fun h => if h = g then b else m.guard h }

/-- One turn of the loop of `__cxa_guard_acquire`, from taking `s_mutex` to giving it up. -/
def acquireLocked (m : Memory) (g : Guard) (self : ℕ) : Memory × Turn :=
  if (m.guard g).done then (m, .initialized)
  else if !(m.guard g).pending then
    ({ m.setGuard g { m.guard g with pending := true } with
      owners := m.owners.ownerSet g self }, .mine)
  else if m.owners.ownerIsSelf g self then (m, .recursion)
  else (m.setGuard g { m.guard g with waiting := true }, .wait)

/-- What `__cxa_guard_release` and `__cxa_guard_abort` both do: read `FLAG_WAITING`, clear the flags and
the entry of the owner. -/
def clear (m : Memory) (g : Guard) : Memory × Bool :=
  ({ m.setGuard g { m.guard g with pending := false, waiting := false } with
    owners := m.owners.ownerClear g }, (m.guard g).waiting)

/-- The critical section of `__cxa_guard_release`, and `wake`. -/
def releaseLocked (m : Memory) (g : Guard) : Memory × Bool :=
  (m.setGuard g { m.guard g with done := true }).clear g

/-- The critical section of `__cxa_guard_abort`, and `wake`. -/
def abortLocked (m : Memory) (g : Guard) : Memory × Bool := m.clear g

end Memory

end OrbisCompat.CxaGuard
