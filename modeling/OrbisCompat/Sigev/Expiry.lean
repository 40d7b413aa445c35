import OrbisCompat.Lib.Radix
import OrbisCompat.Sigev.System

/-!
# `src/orbis_sigev.cpp`: what an arming leads to

An arming of a slot is followed up to the next `timer_settime` or `timer_delete` of it (`Arming`): which
expiries its notification thread decides on, for which deadline and at what time (`expiries`), and which calls
of the callback it makes (`calls`).  `Punctual` says what these have to be.

Seconds are integers, so a `tv_sec` that overflows is left out.
-/

namespace OrbisCompat.Sigev

namespace Timespec

/-- The nanoseconds in a second. -/
abbrev second : ℤ := 1000000000

/-- The time in nanoseconds. -/
def nanos (t : Timespec) : ℤ := Radix.value second t.sec t.nsec

/-- `tv_nsec` is less than a second. -/
def Normalised (t : Timespec) : Prop := Radix.Digit second t.nsec

instance (t : Timespec) : Decidable t.Normalised := inferInstanceAs (Decidable (Radix.Digit _ _))

end Timespec

/-- A call of a callback with its argument. -/
structure Invocation where
  fn : ℕ
  val : ℕ
  deriving DecidableEq, Repr

/-- A decision of `body` to call, with the deadline it is for and the clock as it was read. -/
structure Expiry where
  deadline : Timespec
  now : Timespec
  call : Invocation
  deriving DecidableEq, Repr

/-- The invocation that `body` still has to make. -/
def Pc.pending : Pc → List Invocation
  | .decided fn val => if fn ≠ 0 then [⟨fn, val⟩] else []
  | _ => []

/-- The invocation a decision leads to, when there is a callback. -/
def Expiry.invocation (e : Expiry) : List Invocation := if e.call.fn ≠ 0 then [e.call] else []

/-- What is seen of the notification threads of a slot. -/
inductive Event
  | expired (e : Expiry)
  | called (c : Invocation)
  deriving DecidableEq, Repr

/-- The decision of a step. -/
def Event.expiry : Event → Option Expiry
  | .expired e => some e
  | .called _ => none

/-- The call of a step. -/
def Event.invocation : Event → Option Invocation
  | .expired _ => none
  | .called c => some c

/-- What is seen of a step: the decision that `body` takes past its timed wait, or the call that it makes. -/
def observe (i : SlotId) (s : State) : Label → List Event
  | .body t now =>
    if (s.thread t).slot = i ∧ (s.thread t).pc = .timedOut then
      match ((s.slot i).afterTimedWait true now).2 with
      | .decided fn val => [.expired ⟨(s.slot i).value, now, fn, val⟩]
      | _ => []
    else []
  | .callStart t =>
    if (s.thread t).slot = i then (s.thread t).pc.pending.map .called else []
  | _ => []

/-- The calls of a run that the notification threads of a slot make. -/
def calls (i : SlotId) (s : State) (ls : List Label) : List Invocation :=
  (Lts.trace step (observe i) s ls).filterMap Event.invocation

namespace State

/-- `timer_create` has made the timer of the slot, and no `timer_delete` has got past its critical section. -/
def Live (s : State) (i : SlotId) : Prop :=
  s.owner i = .live ∨ ∃ a, s.owner i = .deleting a ∧ s.call a = .deleting i

/-- The step is the critical section of a `timer_settime` or `timer_delete` of the slot. -/
def resets (s : State) (i : SlotId) : Label → Bool
  | .settimeLocked a _ _ =>
    match s.call a with
    | .setting j _ _ => j == i
    | _ => false
  | .deleteLocked a _ =>
    match s.call a with
    | .deleting j => j == i
    | _ => false
  | _ => false

/-- What the notification thread of the slot still has to call. -/
def pending (s : State) (i : SlotId) : List Invocation :=
  (s.slot i).thread.toList.flatMap fun t =>
    if (s.thread t).slot = i then (s.thread t).pc.pending else []

end State

/-- The absolute deadline that `timer_settime` sets. -/
def deadlineOf (flags : ℕ) (v : Itimerspec) (now : Timespec) : Timespec :=
  if flags &&& timerAbstime ≠ 0 then v.value else now.addTo v.value

end OrbisCompat.Sigev
