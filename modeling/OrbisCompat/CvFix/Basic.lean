import OrbisCompat.Umtx.Deadline

/-!
# `src/orbis_cv_fix.cpp`: the waits of `std::condition_variable`

A wait throws what it does not expect of pthread.  Both waits are `_NOEXCEPT`, so what they throw ends the program.
-/

namespace OrbisCompat.CvFix

open Umtx (Timespec)

def eperm : Int32 := 1

/-- The platform's, where the library was built for 110. -/
def etimedout : Int32 := 60

/-- What the calls of pthread return. -/
structure Pthread where
  condWait : Int32
  condTimedwait : Timespec → Int32

/-- A call of pthread. -/
inductive Call
  | condWait
  | condTimedwait (ts : Timespec)
  deriving DecidableEq, Repr

/-- How a wait ends. -/
inductive Outcome
  | returned
  | terminated (ec : Int32) (what : String)
  deriving DecidableEq, Repr

/-- `condition_variable::wait`. -/
def wait (pt : Pthread) (ownsLock : Bool) : List Call × Outcome :=
  if ownsLock = false then ([], .terminated eperm "condition_variable::wait: mutex not locked")
  else
    let ec := pt.condWait
    ([.condWait], if ec ≠ 0 then .terminated ec "condition_variable wait failed" else .returned)

end OrbisCompat.CvFix
