import OrbisCompat.Lib.Lts
import OrbisCompat.Umtx.Basic

/-!
# `include/sys/umtx.h`: threads in `_umtx_op`

Any number of threads store to words and call `_umtx_op` on them.  A step is one access to memory that
other threads can see, or one operation on a mutex or a condition variable; between two steps of a
thread any other thread may take its own.  Stores to the words need no lock.  A parked thread may be
unparked spuriously at any time, and a timed one may give up at any time.
-/

namespace OrbisCompat.Umtx

/-- The statics of the header, the words, and the threads.  `owes` is not in the header: the thread has
stored to the address and not yet performed the broadcast of its `WAKE`. -/
structure State where
  word : Addr → UInt32
  /-- The holder of the mutex of a bucket. -/
  lock : BucketId → Option ℕ
  /-- `orbis_umtx_waiters`. -/
  waiter : WaiterId → Waiter
  pc : ℕ → Pc
  /-- What the last call of the thread returned. -/
  answer : ℕ → Answer
  owes : ℕ → Addr → Bool

namespace State

/-- Before the first call, with what the words hold then. -/
def init (word : Addr → UInt32) : State where
  word := word
  lock := fun _ => none
  waiter := fun _ => {}
  pc := fun _ => .idle
  answer := fun _ => .ok
  owes := fun _ _ => false

@[simps] def setPc (s : State) (t : ℕ) (pc : Pc) : State :=
  { s with pc := fun u => if u = t then pc else s.pc u }

@[simps] def setLock (s : State) (b : BucketId) (holder : Option ℕ) : State :=
  { s with lock := fun c => if c = b then holder else s.lock c }

@[simps] def setWaiter (s : State) (k : WaiterId) (x : Waiter) : State :=
  { s with waiter := fun j => if j = k then x else s.waiter j }

@[simps] def setOwes (s : State) (t : ℕ) (addr : Addr) (b : Bool) : State :=
  { s with owes := fun u x => if u = t ∧ x = addr then b else s.owes u x }

/-- A store to a word by a thread. -/
@[simps] def store (s : State) (addr : Addr) (val : UInt32) : State :=
  { s with word := fun x => if x = addr then val else s.word x }

/-- Unpark every thread that is parked on the condition variable of the bucket. -/
@[simps] def broadcast (s : State) (b : BucketId) : State :=
  { s with pc := fun u => (s.pc u).broadcastAt b }

/-- The call returns. -/
@[simps] def ret (s : State) (t : ℕ) (r : Answer) : State :=
  { s with pc := fun u => if u = t then .idle else s.pc u,
           answer := fun u => if u = t then r else s.answer u }

end State

/-- One step of one thread. -/
inductive Label
  /-- A store to a word. -/
  | store (t : ℕ) (addr : Addr) (val : UInt32)
  /-- `_umtx_op` is called, with or without a deadline. -/
  | call (t : ℕ) (obj : Addr) (op : ℤ) (val : UInt64) (timed : Bool)
  /-- The next step of a call. -/
  | run (t : ℕ)
  /-- A spurious wake-up. -/
  | spurious (t : ℕ)
  /-- `pthread_cond_timedwait` gives up. -/
  | timeout (t : ℕ)
  deriving DecidableEq, Repr

/-- The entry of `_umtx_op`. -/
def callStep (s : State) (t : ℕ) (obj : Addr) (op : ℤ) (val : UInt64) (timed : Bool) : State :=
  match armOf op with
  | .wait => s.setPc t (.waitLock ⟨obj, val.toUInt32, timed⟩)
  | .wake => s.setPc t (.wakeLock obj)
  | .other => s.ret t (.error .enosys)

/-- The next step of a call.  A mutex that another thread holds blocks. -/
def runStep (s : State) (t : ℕ) : Option State :=
  match s.pc t with
  | .waitLock w =>
    if s.lock w.bucket = none then some ((s.setLock w.bucket (some t)).setPc t (.compare w)) else none
  | .compare w =>
    some (s.setPc t (if s.word w.addr ≠ w.val then .differs w else .claim w 0))
  | .differs w => some ((s.setLock w.bucket none).ret t (.error .ewouldblock))
  | .claim w k =>
    if hk : k < waiters then
      match (s.waiter ⟨k, hk⟩).thread with
      | none => some ((s.setWaiter ⟨k, hk⟩ ⟨some t, w.addr⟩).setPc t (.park w (some ⟨k, hk⟩)))
      | some _ => some (s.setPc t (.claim w (k + 1)))
    else some (s.setPc t (.park w none))
  | .park w reg => some ((s.setLock w.bucket none).setPc t (.parked w reg))
  | .woken w reg ret =>
    if s.lock w.bucket = none then
      some ((s.setLock w.bucket (some t)).setPc t (.release w reg ret))
    else none
  | .release w reg ret =>
    match reg with
    | none => some (s.setPc t (.unlock w ret))
    | some k => some ((s.setWaiter k { s.waiter k with thread := none }).setPc t (.unlock w ret))
  | .unlock w ret =>
    some ((s.setLock w.bucket none).ret t (match ret with
      | some errno => .error errno
      | none => .ok))
  | .wakeLock addr =>
    if s.lock (bucketFor addr) = none then
      some ((s.setLock (bucketFor addr) (some t)).setPc t (.broadcast addr))
    else none
  | .broadcast addr =>
    some (((s.broadcast (bucketFor addr)).setPc t (.wakeUnlock addr)).setOwes t addr false)
  | .wakeUnlock addr => some ((s.setLock (bucketFor addr) none).ret t .ok)
  | .idle | .parked _ _ => none

/-- One step of one thread. -/
def step (s : State) : Label → Option State
  | .store t addr val =>
    if s.pc t = .idle then some ((s.store addr val).setOwes t addr true) else none
  | .call t obj op val timed => if s.pc t = .idle then some (callStep s t obj op val timed) else none
  | .run t => runStep s t
  | .spurious t =>
    match s.pc t with
    | .parked w reg => some (s.setPc t (.woken w reg none))
    | _ => none
  | .timeout t =>
    match s.pc t with
    | .parked w reg => if w.timed then some (s.setPc t (.woken w reg (some .etimedout))) else none
    | _ => none

/-- Runs from the first call on. -/
def Reaches (word : Addr → UInt32) (ls : List Label) (s : State) : Prop :=
  Lts.Run (Lts.Next step) (State.init word) ls s

end OrbisCompat.Umtx
