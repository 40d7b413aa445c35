import OrbisCompat.CxaGuard.Basic
import OrbisCompat.Lib.Lts
import OrbisCompat.Lib.Once

/-!
# `src/orbis_cxa_guard.c`: threads at the guards

Any number of threads acquire, release and abort any number of guards.  A step is one critical section
or the broadcast after it; between two steps of a thread any other thread may take its own.
`pthread_cond_wait` parks the thread or fails, and a parked thread may be unparked spuriously at any
time.  A thread releases or aborts only a guard of which its own acquire returned `1`, and does not end
before it has.  What follows `guard_recursion_abort` does not return, so its caller is left there.
-/

namespace OrbisCompat.CxaGuard

/-- What becomes of a guard, and by whom. -/
abbrev Event := Once.Event ℕ Guard

/-- Where a thread is in the three functions. -/
inductive Pc
  /-- In none of them. -/
  | idle
  /-- In `__cxa_guard_acquire`, before `pthread_mutex_lock`. -/
  | trying (g : Guard)
  /-- Parked in `pthread_cond_wait`. -/
  | parked (g : Guard)
  /-- In `guard_recursion_abort`. -/
  | reporting (g : Guard)
  /-- In `__cxa_guard_release` or `__cxa_guard_abort`, before `pthread_cond_broadcast`. -/
  | waking (g : Guard)
  deriving DecidableEq, Repr

/-- `pthread_cond_broadcast` and spurious wake-ups: a parked thread goes on to take the mutex. -/
def Pc.unpark : Pc → Pc
  | parked g => trying g
  | pc => pc

/-- The statics of the file, the guards and the threads.  The last two fields are not in the file: the
guards that a thread has acquired and neither released nor aborted, and what has happened so far, newest
first. -/
structure State where
  mem : Memory
  /-- The threads that have started and not ended. -/
  live : List ℕ
  pc : ℕ → Pc
  holds : ℕ → List Guard
  log : List Event

namespace State

/-- Before the first thread. -/
def init : State where
  mem := {}
  live := []
  pc := fun _ => .idle
  holds := fun _ => []
  log := []

@[simps] def setPc (s : State) (t : ℕ) (pc : Pc) : State :=
  { s with pc := fun u => if u = t then pc else s.pc u }

@[simps] def setHolds (s : State) (t : ℕ) (gs : List Guard) : State :=
  { s with holds := fun u => if u = t then gs else s.holds u }

@[simps] def setMem (s : State) (m : Memory) : State := { s with mem := m }

@[simps] def record (s : State) (e : Event) : State := { s with log := e :: s.log }

/-- Unpark every thread. -/
@[simps] def broadcast (s : State) : State := { s with pc := fun u => (s.pc u).unpark }

end State

/-- One step of one thread. -/
inductive Label
  /-- The thread starts. -/
  | start (t : ℕ)
  /-- The thread ends. -/
  | exit (t : ℕ)
  /-- `__cxa_guard_acquire` is called. -/
  | acquire (t : ℕ) (g : Guard)
  /-- One turn of its loop, and whether `pthread_cond_wait` parks the thread, if it comes to that. -/
  | turn (t : ℕ) (parks : Bool)
  /-- `__cxa_guard_release`, to the end of its critical section. -/
  | release (t : ℕ) (g : Guard)
  /-- `__cxa_guard_abort`, to the end of its critical section. -/
  | abort (t : ℕ) (g : Guard)
  /-- The broadcast after it. -/
  | broadcast (t : ℕ)
  /-- A spurious wake-up. -/
  | spurious (t : ℕ)
  deriving DecidableEq, Repr

/-- One turn of the loop of `__cxa_guard_acquire`.  After a failed wait the thread gives the mutex up,
sleeps, and takes it again. -/
def turnStep (anchor : ℕ → ℕ) (s : State) (t : ℕ) (parks : Bool) (g : Guard) : State :=
  let r := s.mem.acquireLocked g (anchor t)
  match r.2 with
  | .initialized => ((s.setMem r.1).setPc t .idle).record (.skip t g)
  | .mine =>
    (((s.setMem r.1).setPc t .idle).setHolds t (g :: s.holds t)).record (.enter t g)
  | .recursion => (s.setMem r.1).setPc t (.reporting g)
  | .wait => (s.setMem r.1).setPc t (if parks then .parked g else .trying g)

/-- The end of the critical section of `__cxa_guard_release` or `__cxa_guard_abort`. -/
def leaveStep (s : State) (t : ℕ) (g : Guard) (r : Memory × Bool) (e : Event) : State :=
  (((s.setMem r.1).setPc t (if r.2 then .waking g else .idle)).setHolds t
    ((s.holds t).erase g)).record e

/-- One step of one thread.  `anchor t` is what the thread reads at `%fs:0`. -/
def step (anchor : ℕ → ℕ) (s : State) : Label → Option State
  | .start t => if t ∈ s.live then none else some { s with live := t :: s.live }
  | .exit t =>
    if s.pc t = .idle ∧ s.holds t = [] then some { s with live := s.live.filter (· ≠ t) } else none
  | .acquire t g => if t ∈ s.live ∧ s.pc t = .idle then some (s.setPc t (.trying g)) else none
  | .turn t parks =>
    match s.pc t with
    | .trying g => some (turnStep anchor s t parks g)
    | _ => none
  | .release t g =>
    if s.pc t = .idle ∧ g ∈ s.holds t then
      some (leaveStep s t g (s.mem.releaseLocked g) (.finish t g))
    else none
  | .abort t g =>
    if s.pc t = .idle ∧ g ∈ s.holds t then
      some (leaveStep s t g (s.mem.abortLocked g) (.giveUp t g))
    else none
  | .broadcast t =>
    match s.pc t with
    | .waking _ => some (s.broadcast.setPc t .idle)
    | _ => none
  | .spurious t =>
    match s.pc t with
    | .parked g => some (s.setPc t (.trying g))
    | _ => none

/-- Runs from the first thread on whose steps all satisfy `ok`. -/
def Reaches (anchor : ℕ → ℕ) (ok : State → Label → Prop) (ls : List Label) (s : State) : Prop :=
  Lts.Run (Lts.Guarded ok (Lts.Next (step anchor))) State.init ls s

end OrbisCompat.CxaGuard
