import OrbisCompat.Lib.Lts
import OrbisCompat.Sigev.Basic

/-!
# `src/orbis_sigev.cpp`: the calls and the notification threads, step by step

Any number of client threads, and the callbacks themselves, call `timer_create`, `timer_settime` and
`timer_delete` while the notification threads run `body`.  A step is one critical section, one call
of the platform or one store outside a lock; between two steps of a thread any other thread may take
its own.  A condition variable wakes spuriously at any time, a timed wait gives up at any time, and
`pthread_join` of the calling thread itself returns `EDEADLK` without waiting.

Calls of other timers than `SIGEV_THREAD` ones go to `ktimer_*` and touch nothing here, and so does a
refused call (`ORBIS_SIGEV_THREAD=0`).
-/

namespace OrbisCompat.Sigev

/-- Who calls the interface: a thread of the program, or a callback on a notification thread. -/
inductive Agent
  | client (n : ℕ)
  | callback (t : ℕ)
  deriving DecidableEq, Repr

/-- How far an agent is in a call. -/
inductive CallState
  | idle
  /-- `timer_create`: the slot is marked used. -/
  | claimed (i : SlotId) (ev : Sigevent)
  /-- `timer_create`: the kernel timer is there, and these stores are still to come. -/
  | storing (i : SlotId) (ev : Sigevent) (id : ℤ) (rest : List Field)
  /-- `timer_create`: failed, and the slot is about to be marked unused. -/
  | failing (i : SlotId)
  /-- `timer_settime`: past `slotOf` and `ktimer_settime`. -/
  | setting (i : SlotId) (flags : ℕ) (inp : Option Itimerspec)
  /-- `timer_delete`: past `slotOf`. -/
  | deleting (i : SlotId)
  /-- `timer_delete`: past its critical section, in `pthread_join`. -/
  | stopped (i : SlotId)
  /-- `timer_delete`: past `pthread_join`. -/
  | joined (i : SlotId)
  /-- `timer_delete`: past `ktimer_delete`. -/
  | forgetting (i : SlotId)
  deriving DecidableEq, Repr

/-- A notification thread, with the timer it was started for. -/
structure Thread where
  slot : SlotId
  pc : Pc
  ev : Sigevent
  /-- The number of that timer. -/
  timer : ℕ
  deriving DecidableEq, Repr

/-- Who has the slot.  `left` is the notification thread that deleted its own timer from its
callback. -/
inductive Owner
  | free (left : Option ℕ)
  | creating (a : Agent)
  | live
  | deleting (a : Agent)
  | leaving (a : Agent) (left : Option ℕ)
  deriving DecidableEq, Repr

/-- The thread that deleted its own timer. -/
def Owner.left : Owner → Option ℕ
  | free left | leaving _ left => left
  | _ => none

/-- The statics of the file and the threads at work on them.  The last four fields are not in the
file; they record who has a slot, for which timer, and whether that timer was disarmed last. -/
structure State where
  /-- `g_slot`. -/
  slot : SlotId → Slot
  /-- `g_fired`. -/
  fired : ℕ
  /-- The kernel timers this file holds. -/
  ktimers : List ℤ
  thread : ℕ → Thread
  /-- The threads started so far. -/
  spawned : ℕ
  call : Agent → CallState
  owner : SlotId → Owner
  /-- The number of the timer that has the slot. -/
  timer : SlotId → ℕ
  /-- The timers numbered so far. -/
  timers : ℕ
  /-- The timer was last disarmed by `timer_settime`, or never armed. -/
  off : SlotId → Bool

namespace State

/-- Before the first call. -/
def init : State where
  slot := fun _ => {}
  fired := 0
  ktimers := []
  thread := fun _ => ⟨0, .exited, ⟨0, 0⟩, 0⟩
  spawned := 0
  call := fun _ => .idle
  owner := fun _ => .free none
  timer := fun _ => 0
  timers := 0
  off := fun _ => true

@[simps] def setSlot (s : State) (i : SlotId) (x : Slot) : State :=
  { s with slot := fun j => if j = i then x else s.slot j }

@[simps] def setCall (s : State) (a : Agent) (c : CallState) : State :=
  { s with call := fun b => if b = a then c else s.call b }

@[simps] def setOwner (s : State) (i : SlotId) (o : Owner) : State :=
  { s with owner := fun j => if j = i then o else s.owner j }

@[simps] def setOff (s : State) (i : SlotId) (b : Bool) : State :=
  { s with off := fun j => if j = i then b else s.off j }

/-- Start a thread. -/
@[simps] def spawn (s : State) (x : Thread) : State :=
  { s with thread := fun u => if u = s.spawned then x else s.thread u, spawned := s.spawned + 1 }

/-- Give the slot to a new timer. -/
@[simps] def newTimer (s : State) (i : SlotId) : State :=
  { s with timer := fun j => if j = i then s.timers else s.timer j, timers := s.timers + 1 }

@[simps] def setPc (s : State) (t : ℕ) (pc : Pc) : State :=
  { s with thread := fun u => if u = t then { s.thread t with pc := pc } else s.thread u }

/-- A callback can only call while it runs. -/
def active (s : State) : Agent → Bool
  | .client _ => true
  | .callback t => (s.thread t).pc.inCallback

/-- The first unused slot. -/
def firstFree (s : State) : Option SlotId := (List.finRange kMaxTimers).find? fun i => !(s.slot i).used

/-- The thread is parked on the condition variable of the slot. -/
def parkedAt (s : State) (i : SlotId) (t : ℕ) : Bool :=
  decide ((s.thread t).slot = i) && (s.thread t).pc.parked

/-- What `pthread_cond_signal` may do: unpark one of the threads parked there, and nothing only when
there is none. -/
def signals (s : State) (i : SlotId) : Option ℕ → Bool
  | some t => s.parkedAt i t
  | none => (List.range s.spawned).all fun t => !s.parkedAt i t

/-- Unpark a thread. -/
def wake (s : State) : Option ℕ → State
  | some t => s.setPc t (s.thread t).pc.unpark
  | none => s

end State

/-- One step of one thread. -/
inductive Label
  /-- `timer_create`: look for an unused slot and mark it. -/
  | createClaim (a : Agent) (ev : Sigevent)
  /-- `ktimer_create`: the id, or `none` for a failure. -/
  | createKtimer (a : Agent) (id : Option ℤ)
  /-- The next store. -/
  | createStore (a : Agent)
  /-- `pthread_create`, and whether it succeeded. -/
  | createSpawn (a : Agent) (ok : Bool)
  /-- Mark the slot unused again. -/
  | createRelease (a : Agent)
  /-- `timer_settime`: `slotOf` and `ktimer_settime`. -/
  | settimeEnter (a : Agent) (i : SlotId) (flags : ℕ) (inp : Option Itimerspec)
  /-- Its critical section, with the clock as it reads it and the thread its signal unparks. -/
  | settimeLocked (a : Agent) (now : Timespec) (woken : Option ℕ)
  /-- `timer_delete` on a live handle: `slotOf`. -/
  | deleteEnter (a : Agent) (i : SlotId)
  /-- Its critical section, with the thread its signal unparks. -/
  | deleteLocked (a : Agent) (woken : Option ℕ)
  /-- The return of `pthread_join`. -/
  | deleteJoin (a : Agent)
  /-- `ktimer_delete`. -/
  | deleteKtimer (a : Agent)
  /-- Mark the slot unused. -/
  | deleteClear (a : Agent)
  /-- `body` takes the mutex and runs until it gives it up, with the clock as it reads it. -/
  | body (t : ℕ) (now : Timespec)
  /-- `pthread_cond_timedwait` gives up. -/
  | timeout (t : ℕ)
  /-- A spurious wake-up. -/
  | spurious (t : ℕ)
  /-- `body` calls the callback, when there is one. -/
  | callStart (t : ℕ)
  /-- The callback returns. -/
  | callReturn (t : ℕ)
  deriving DecidableEq, Repr

/-- `body` takes the mutex and runs until it gives it up. -/
def bodyStep (s : State) (t : ℕ) (now : Timespec) : Option State :=
  let i := (s.thread t).slot
  match (s.thread t).pc with
  | .start | .woken | .returned => some (s.setPc t (s.slot i).loopHead)
  | .wokenTimed =>
    let r := (s.slot i).afterTimedWait false now
    some ((s.setSlot i r.1).setPc t r.2)
  | .timedOut =>
    let r := (s.slot i).afterTimedWait true now
    some ((s.setSlot i r.1).setPc t r.2)
  | _ => none

/-- `timer_create`, `timer_settime` and `timer_delete` by an agent, and the steps of a notification
thread. -/
def step (s : State) : Label → Option State
  | .createClaim a ev =>
    if s.active a && s.call a == .idle then
      match s.firstFree with
      | none => some s
      | some i =>
        some ((((s.setSlot i { s.slot i with used := true }).setCall a (.claimed i ev)).setOwner i
          (.creating a)).newTimer i)
    else none
  | .createKtimer a id =>
    match s.call a, id with
    | .claimed i _, none => some (s.setCall a (.failing i))
    | .claimed i ev, some id =>
      some { s.setCall a (.storing i ev id Field.order) with ktimers := id :: s.ktimers }
    | _, _ => none
  | .createStore a =>
    match s.call a with
    | .storing i ev id (f :: rest) =>
      some (((s.setSlot i ((s.slot i).store ev id f)).setCall a (.storing i ev id rest)).setOff i
        (f == .armed || s.off i))
    | _ => none
  | .createSpawn a ok =>
    match s.call a with
    | .storing i ev id [] =>
      if ok then
        some ((((s.setSlot i { s.slot i with thread := some s.spawned }).setCall a .idle).setOwner i
          .live).spawn ⟨i, .start, ev, s.timer i⟩)
      else some { s.setCall a (.failing i) with ktimers := s.ktimers.erase id }
    | _ => none
  | .createRelease a =>
    match s.call a with
    | .failing i => some (((s.setSlot i { s.slot i with used := false }).setCall a .idle).setOwner i
        (.free none))
    | _ => none
  | .settimeEnter a i flags inp =>
    if s.active a && s.call a == .idle && (s.slot i).used then
      some (s.setCall a (.setting i flags inp))
    else none
  | .settimeLocked a now woken =>
    match s.call a with
    | .setting i flags inp =>
      if s.signals i woken then
        some ((((s.setSlot i ((s.slot i).settimeLocked flags inp now)).wake woken).setCall a
          .idle).setOff i (Slot.disarms inp))
      else none
    | _ => none
  | .deleteEnter a i =>
    if s.active a && s.call a == .idle && (s.slot i).used && s.owner i == .live then
      some ((s.setCall a (.deleting i)).setOwner i (.deleting a))
    else none
  | .deleteLocked a woken =>
    match s.call a with
    | .deleting i =>
      if s.signals i woken then
        some (((s.setSlot i (s.slot i).deleteLocked).wake woken).setCall a (.stopped i))
      else none
    | _ => none
  | .deleteJoin a =>
    match s.call a with
    | .stopped i =>
      match (s.slot i).thread with
      | none => some ((s.setCall a (.joined i)).setOwner i (.leaving a none))
      | some t =>
        -- `EDEADLK` when the caller is the thread itself
        if a = .callback t then some ((s.setCall a (.joined i)).setOwner i (.leaving a (some t)))
        else if (s.thread t).pc = .exited then
          some ((s.setCall a (.joined i)).setOwner i (.leaving a none))
        else none
    | _ => none
  | .deleteKtimer a =>
    match s.call a with
    | .joined i =>
      some { s.setCall a (.forgetting i) with ktimers := s.ktimers.erase (s.slot i).under }
    | _ => none
  | .deleteClear a =>
    match s.call a with
    | .forgetting i =>
      some (((s.setSlot i (s.slot i).forget).setCall a .idle).setOwner i (.free (s.owner i).left))
    | _ => none
  | .body t now => bodyStep s t now
  | .timeout t => if (s.thread t).pc = .timedWaiting then some (s.setPc t .timedOut) else none
  | .spurious t =>
    if (s.thread t).pc.parked then some (s.setPc t (s.thread t).pc.unpark) else none
  | .callStart t =>
    match (s.thread t).pc with
    | .decided fn val => some (s.setPc t (if fn ≠ 0 then .calling fn val else .returned))
    | _ => none
  | .callReturn t =>
    if (s.thread t).pc.inCallback && s.call (.callback t) == .idle then
      some { s.setPc t .returned with fired := s.fired + 1 }
    else none

/-- Runs from the first call on whose steps all satisfy `ok`. -/
def Reaches (ok : State → Label → Prop) (ls : List Label) (s : State) : Prop :=
  Lts.Run (Lts.Guarded ok (Lts.Next step)) State.init ls s

end OrbisCompat.Sigev
