import Mathlib.Data.Fintype.Basic

/-!
# `include/sys/umtx.h`: the buckets and the calls

`_umtx_op` is a futex made of a fixed table of mutex and condition variable pairs that addresses hash
onto.  `WAIT` compares the word and parks with the mutex of its bucket held; `WAKE` broadcasts with the
mutex held.

The counters are not modelled.  The deadline of a timed wait (`Umtx/Deadline.lean`) and the time stamps of the
waiter register (`Umtx/Register.lean`) do not matter here: a timed wait gives up at any time.
-/

namespace OrbisCompat.Umtx

/-- The address of a word.  The words are aligned, so two of them overlap only when they are one. -/
abbrev Addr := UInt64

/-- `ORBIS_UMTX_BUCKETS`. -/
abbrev buckets : ℕ := 64

/-- An index into `orbis_umtx_bucket`. -/
abbrev BucketId := Fin buckets

/-- `orbis_umtx_bucket_for`. -/
def bucketFor (addr : Addr) : BucketId :=
  let v := addr >>> 2
  ⟨(v ^^^ (v >>> 8)).toNat % buckets, Nat.mod_lt _ (by decide)⟩

-- words 256 bytes apart can share a bucket
example : bucketFor 0x1000 = bucketFor 0x1100 := by decide

/-- `ORBIS_UMTX_WAITERS`. -/
abbrev waiters : ℕ := 64

/-- An index into `orbis_umtx_waiters`. -/
abbrev WaiterId := Fin waiters

/-- `struct orbis_umtx_waiter`, with no thread when the slot is free. -/
structure Waiter where
  thread : Option ℕ := none
  addr : Addr := 0
  deriving DecidableEq, Repr

/-- The error codes of the calls. -/
inductive Errno
  | ewouldblock | etimedout | enosys
  deriving DecidableEq, Repr

/-- What `_umtx_op` returns: `0`, or `-1` with `errno`. -/
inductive Answer
  | ok
  | error (errno : Errno)
  deriving DecidableEq, Repr

/-- The arms of the `switch`. -/
inductive Arm
  | wait
  | wake
  | other
  deriving DecidableEq, Repr

/-- The arm of an operation. -/
def armOf (op : ℤ) : Arm :=
  if op = 2 ∨ op = 11 ∨ op = 15 then .wait else if op = 3 ∨ op = 16 then .wake else .other

/-- A call of the `WAIT` arm: the address, the value it expects, and whether there is a deadline. -/
structure Wait where
  addr : Addr
  val : UInt32
  timed : Bool
  deriving DecidableEq, Repr

/-- The bucket of a call. -/
def Wait.bucket (w : Wait) : BucketId := bucketFor w.addr

/-- Where a thread is in `_umtx_op`. -/
inductive Pc
  /-- Not in a call. -/
  | idle
  /-- `WAIT`: before `pthread_mutex_lock`. -/
  | waitLock (w : Wait)
  /-- `WAIT`: before the comparison. -/
  | compare (w : Wait)
  /-- `WAIT`: the word differs; before `pthread_mutex_unlock`. -/
  | differs (w : Wait)
  /-- `WAIT`: in `orbis_umtx_waiter_claim`, before it tries this slot. -/
  | claim (w : Wait) (k : ℕ)
  /-- `WAIT`: before the wait on the condition variable. -/
  | park (w : Wait) (reg : Option WaiterId)
  /-- `WAIT`: parked. -/
  | parked (w : Wait) (reg : Option WaiterId)
  /-- `WAIT`: unparked, competing for the mutex. -/
  | woken (w : Wait) (reg : Option WaiterId) (ret : Option Errno)
  /-- `WAIT`: before `orbis_umtx_waiter_release`. -/
  | release (w : Wait) (reg : Option WaiterId) (ret : Option Errno)
  /-- `WAIT`: before the last `pthread_mutex_unlock`. -/
  | unlock (w : Wait) (ret : Option Errno)
  /-- `WAKE`: before `pthread_mutex_lock`. -/
  | wakeLock (addr : Addr)
  /-- `WAKE`: before `pthread_cond_broadcast`. -/
  | broadcast (addr : Addr)
  /-- `WAKE`: before `pthread_mutex_unlock`. -/
  | wakeUnlock (addr : Addr)
  deriving DecidableEq, Repr

namespace Pc

/-- The bucket whose mutex the thread holds. -/
def holds : Pc → Option BucketId
  | compare w | differs w | claim w _ | park w _ | release w _ _ | unlock w _ => some w.bucket
  | broadcast addr | wakeUnlock addr => some (bucketFor addr)
  | idle | waitLock _ | parked _ _ | woken _ _ _ | wakeLock _ => none

/-- The wait that goes on because the word was as expected. -/
def waiting : Pc → Option Wait
  | claim w _ | park w _ | parked w _ => some w
  | _ => none

/-- `pthread_cond_broadcast` unparks what is parked on the bucket's condition variable. -/
def broadcastAt (b : BucketId) : Pc → Pc
  | parked w reg => if w.bucket = b then woken w reg none else parked w reg
  | pc => pc

end Pc

end OrbisCompat.Umtx
