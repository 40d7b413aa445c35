import Mathlib.Algebra.Ring.Nat
import Mathlib.Data.Fintype.Basic

/-!
# `src/orbis_sigev.cpp`: a timer slot and its critical sections

A `SIGEV_THREAD` timer is a slot of a fixed table with a notification thread of its own.  Everything
that the file does to the deadline of a slot happens with the slot's mutex held, so each critical
section is a function of the slot: the one of `timer_settime` (`Slot.settimeLocked`), the one of
`timer_delete` (`Slot.deleteLocked`), and the stretches of `body` between taking the mutex and giving
it up again (`Slot.loopHead`, `Slot.afterTimedWait`).

Function pointers are addresses, with `0` for `nullptr`.  What `orbis_log` writes is not modelled.
-/

namespace OrbisCompat.Sigev

/-- `kMaxTimers`. -/
abbrev kMaxTimers : ℕ := 8

instance : NeZero kMaxTimers := ⟨by decide⟩

/-- An index into `g_slot`. -/
abbrev SlotId := Fin kMaxTimers

/-- `TIMER_ABSTIME`. -/
def timerAbstime : ℕ := 1

/-- `struct timespec`. -/
structure Timespec where
  sec : ℤ
  nsec : ℤ
  deriving DecidableEq, Repr

/-- `struct itimerspec`. -/
structure Itimerspec where
  value : Timespec
  interval : Timespec
  deriving DecidableEq, Repr

/-- What a `SIGEV_THREAD` `struct sigevent` says: whom to call, and with what. -/
structure Sigevent where
  fn : ℕ
  val : ℕ
  deriving DecidableEq, Repr

namespace Timespec

/-- `isZero`. -/
def isZero (t : Timespec) : Bool := t.sec == 0 && t.nsec == 0

/-- `addTo`. -/
def addTo (t d : Timespec) : Timespec :=
  let sec := t.sec + d.sec
  let nsec := t.nsec + d.nsec
  if nsec ≥ 1000000000 then ⟨sec + 1, nsec - 1000000000⟩ else ⟨sec, nsec⟩

/-- The comparison of `body`: the clock has not reached the deadline. -/
def before (now deadline : Timespec) : Bool :=
  decide (now.sec < deadline.sec) || now.sec == deadline.sec && decide (now.nsec < deadline.nsec)

end Timespec

/-- `Slot`, less its mutex and condition variable. -/
structure Slot where
  used : Bool := false
  /-- The kernel timer underneath. -/
  under : ℤ := -1
  fn : ℕ := 0
  val : ℕ := 0
  thread : Option ℕ := none
  armed : Bool := false
  stop : Bool := false
  /-- The absolute deadline. -/
  value : Timespec := ⟨0, 0⟩
  interval : Timespec := ⟨0, 0⟩
  deriving DecidableEq, Repr

/-- Where a notification thread is in `body`. -/
inductive Pc
  /-- Created, before it first takes the mutex. -/
  | start
  /-- Parked in `pthread_cond_wait`. -/
  | waiting
  /-- Unparked from it, competing for the mutex. -/
  | woken
  /-- Parked in `pthread_cond_timedwait`. -/
  | timedWaiting
  /-- Unparked from it without a timeout, competing for the mutex. -/
  | wokenTimed
  /-- Given up by it with `ETIMEDOUT`, competing for the mutex. -/
  | timedOut
  /-- Past the decision to call, with the mutex given up. -/
  | decided (fn val : ℕ)
  /-- Inside the callback. -/
  | calling (fn val : ℕ)
  /-- Back from it, competing for the mutex. -/
  | returned
  | exited
  deriving DecidableEq, Repr

namespace Pc

/-- Parked on the slot's condition variable. -/
def parked : Pc → Bool
  | waiting | timedWaiting => true
  | _ => false

/-- Where a wake-up takes a parked thread. -/
def unpark : Pc → Pc
  | waiting => woken
  | timedWaiting => wokenTimed
  | pc => pc

/-- Inside the callback. -/
def inCallback : Pc → Bool
  | calling _ _ => true
  | _ => false

end Pc

/-- The fields that `timer_create` writes, in its order. -/
inductive Field
  | under | fn | val | armed | stop | value | interval
  deriving DecidableEq, Repr

/-- The order of the stores of `timer_create`. -/
def Field.order : List Field := [under, fn, val, armed, stop, value, interval]

namespace Slot

/-- One store of `timer_create`. -/
def store (s : Slot) (ev : Sigevent) (id : ℤ) : Field → Slot
  | .under => { s with under := id }
  | .fn => { s with fn := ev.fn }
  | .val => { s with val := ev.val }
  | .armed => { s with armed := false }
  | .stop => { s with stop := false }
  | .value => { s with value := ⟨0, 0⟩ }
  | .interval => { s with interval := ⟨0, 0⟩ }

/-- Whether `timer_settime` disarms. -/
def disarms : Option Itimerspec → Bool
  | none => true
  | some v => v.value.isZero

/-- The critical section of `timer_settime`, with the clock as it reads it. -/
def settimeLocked (s : Slot) (flags : ℕ) (inp : Option Itimerspec) (now : Timespec) : Slot :=
  match inp with
  | none => { s with armed := false }
  | some v =>
    if v.value.isZero then { s with armed := false }
    else
      let deadline := if flags &&& timerAbstime ≠ 0 then v.value else now.addTo v.value
      { s with value := deadline, interval := v.interval, armed := true }

/-- The critical section of `timer_delete`. -/
def deleteLocked (s : Slot) : Slot := { s with stop := true, armed := false }

/-- What `timer_delete` clears at its end. -/
def forget (s : Slot) : Slot := { s with used := false, under := -1, fn := 0 }

/-- The head of the loop of `body`: where the thread gives the mutex up next. -/
def loopHead (s : Slot) : Pc :=
  if !s.armed && !s.stop then .waiting else if s.stop then .exited else .timedWaiting

/-- `body` from the return of `pthread_cond_timedwait` to where it gives the mutex up next. -/
def afterTimedWait (s : Slot) (timedOut : Bool) (now : Timespec) : Slot × Pc :=
  if s.stop then (s, .exited)
  else if !timedOut then (s, s.loopHead)
  else if now.before s.value then (s, s.loopHead)
  else
    (if s.interval.isZero then { s with armed := false }
      else { s with value := s.value.addTo s.interval }, .decided s.fn s.val)

end Slot

end OrbisCompat.Sigev
