import Mathlib.Data.Fintype.Basic
import OrbisCompat.Lib.Radix

/-!
# `include/sys/umtx.h`: `orbis_umtx_deadline`

A timed wait names a clock of its own, and `pthread_cond_timedwait` measures against the one that a probe found
it to use.  The deadline is converted through the interval that is left.

`time_t` and `long` are 64 bits wide, and their sums and differences wrap.
-/

namespace OrbisCompat.Umtx

/-- `struct timespec`. -/
structure Timespec where
  sec : Int64
  nsec : Int64
  deriving DecidableEq, Repr

/-- `UMTX_ABSTIME`. -/
def umtxAbstime : UInt32 := 0x01

/-- `struct _umtx_time`. -/
structure UmtxTime where
  timeout : Timespec
  flags : UInt32
  clockid : UInt32
  deriving DecidableEq, Repr

/-- The clock that `orbis_umtx_cond_clock` names. -/
inductive CondClock
  | realtime | monotonic
  deriving DecidableEq, Repr

/-- What the calls of `clock_gettime` answer. -/
structure Readings where
  /-- The clock that the caller names, when there is such a clock. -/
  named : UInt32 → Option Timespec
  /-- `CLOCK_MONOTONIC`, when there is not. -/
  fallback : Timespec
  /-- The clock of the condition variables. -/
  cond : CondClock → Timespec

/-- `now`: the caller's clock. -/
def callerNow (t : UmtxTime) (r : Readings) : Timespec := (r.named t.clockid).getD r.fallback

/-- The interval up to an absolute timeout, which is empty when it has passed. -/
def remaining (timeout now : Timespec) : Timespec :=
  let rel : Timespec := ⟨timeout.sec - now.sec, timeout.nsec - now.nsec⟩
  let rel : Timespec := if rel.nsec < 0 then ⟨rel.sec - 1, rel.nsec + 1000000000⟩ else rel
  if rel.sec < 0 then ⟨0, 0⟩ else rel

/-- `rel`. -/
def relative (t : UmtxTime) (r : Readings) : Timespec :=
  if t.flags &&& umtxAbstime = 0 then t.timeout else remaining t.timeout (callerNow t r)

/-- An interval after a reading of a clock. -/
def after (base rel : Timespec) : Timespec :=
  let out : Timespec := ⟨base.sec + rel.sec, base.nsec + rel.nsec⟩
  if out.nsec ≥ 1000000000 then ⟨out.sec + 1, out.nsec - 1000000000⟩ else out

/-- `orbis_umtx_deadline`. -/
def deadline (t : UmtxTime) (clock : CondClock) (r : Readings) : Timespec :=
  after (r.cond clock) (relative t r)

namespace Timespec

/-- The nanoseconds in a second. -/
abbrev second : ℤ := 1000000000

/-- The time in nanoseconds. -/
def nanos (t : Timespec) : ℤ := Radix.value second t.sec.toInt t.nsec.toInt

/-- `tv_nsec` is less than a second. -/
def Normalised (t : Timespec) : Prop := Radix.Digit second t.nsec.toInt

instance (t : Timespec) : Decidable t.Normalised := inferInstanceAs (Decidable (Radix.Digit _ _))

end Timespec

/-- The nanoseconds from now to the timeout, or none when it has passed. -/
def interval (t : UmtxTime) (r : Readings) : ℤ :=
  if t.flags &&& umtxAbstime = 0 then t.timeout.nanos
  else max 0 (t.timeout.nanos - (callerNow t r).nanos)

/-- The timeout and both readings are normalised, and an absolute timeout is not before the epoch. -/
structure Proper (t : UmtxTime) (clock : CondClock) (r : Readings) : Prop where
  timeout : t.timeout.Normalised
  sec : t.flags &&& umtxAbstime ≠ 0 → 0 ≤ t.timeout.sec
  now : (callerNow t r).Normalised
  cond : (r.cond clock).Normalised

/-- **An exact conversion.**  The deadline is as far from the condition variables' clock as the timeout is from the
caller's, and not in the past when the timeout is not. -/
structure Converted (t : UmtxTime) (clock : CondClock) (r : Readings) : Prop where
  normalised : (deadline t clock r).Normalised
  nanos : (deadline t clock r).nanos = (r.cond clock).nanos + interval t r
  future : t.flags &&& umtxAbstime ≠ 0 → (callerNow t r).nanos ≤ t.timeout.nanos →
    (r.cond clock).nanos ≤ (deadline t clock r).nanos

/-- A time whose seconds fit into a `time_t`. -/
def Representable (nanos : ℤ) : Prop :=
  -(2 ^ 63 * Timespec.second) ≤ nanos ∧ nanos < 2 ^ 63 * Timespec.second

instance (nanos : ℤ) : Decidable (Representable nanos) := inferInstanceAs (Decidable (_ ∧ _))

end OrbisCompat.Umtx
