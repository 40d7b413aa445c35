import Mathlib.Algebra.Ring.Int.Defs
import OrbisCompat.Lib.Lts
import OrbisCompat.Sigev.Basic

/-!
# `src/orbis_sigev.cpp`: the five calls, whole

Each of the five functions as one call that nothing interrupts, over the slot table and the kernel
timers there are.  A `timer_t` is a pointer, so a number below `2 ^ 64`: that of a `SIGEV_THREAD` timer
is the address of its slot, and any other is the kernel's id itself, which `slotOf` tells apart by the
place of the table.

What the platform answers to a call is part of the call: the switch `ORBIS_SIGEV_THREAD`, the return of
`ktimer_create` with the id it stores, and the thread of `pthread_create` or its failure.
`ktimer_delete` succeeds.

Between two calls the notification threads run `body` on their slots (`Call.body`).  Inside a call
they have nothing to do: a critical section excludes them, and once `stop` is set `body` writes nothing.
-/

namespace OrbisCompat.Sigev

/-- `SIGEV_NONE`. -/
def sigevNone : ℤ := 1

/-- `SIGEV_THREAD`. -/
def sigevThread : ℤ := 2

/-- `struct sigevent`. -/
structure SdkSigevent where
  notify : ℤ
  signo : ℤ
  value : ℕ
  fn : ℕ
  deriving DecidableEq, Repr

/-- `struct KSigevent`. -/
structure KSigevent where
  value : ℕ := 0
  signo : ℤ := 0
  notify : ℤ := 0
  zero : ℤ := 0
  pad : ℤ := 0
  deriving DecidableEq, Repr

/-- `toKernel`. -/
def toKernel : Option SdkSigevent → KSigevent
  | none => {}
  | some ev => { value := ev.value, signo := ev.signo, notify := ev.notify }

/-- What a slot takes over from the `struct sigevent`. -/
def SdkSigevent.toSigevent (ev : SdkSigevent) : Sigevent := ⟨ev.fn, ev.value⟩

/-- `timer_t`. -/
abbrev Handle := ℕ

/-- `idOf`. -/
def idOf (t : Handle) : ℤ := Int.bmod t (2 ^ 32)

/-- `handleOf`. -/
def handleOf (id : ℤ) : Handle := (id % 2 ^ 64).toNat

/-- Where `g_slot` is, and the size of a `Slot`. -/
structure Layout where
  base : ℕ
  size : ℕ
  size_pos : 0 < size
  fits : base + kMaxTimers * size ≤ 2 ^ 64

namespace Layout

/-- `&g_slot[i]`. -/
def address (L : Layout) (i : SlotId) : Handle := L.base + i * L.size

/-- `s >= &g_slot[0] && s < &g_slot[kMaxTimers]`. -/
def Inside (L : Layout) (t : Handle) : Prop := L.base ≤ t ∧ t < L.base + kMaxTimers * L.size

instance (L : Layout) (t : Handle) : Decidable (L.Inside t) := inferInstanceAs (Decidable (_ ∧ _))

/-- The slot an address inside the table is in. -/
def index (L : Layout) (t : Handle) (h : L.Inside t) : SlotId :=
  ⟨(t - L.base) / L.size, Nat.div_lt_of_lt_mul <| by
    rw [Nat.mul_comm]
    exact Nat.sub_lt_left_of_lt_add h.1 h.2⟩

/-- A plain kernel timer id: a non-negative `int` that is no address inside the table. -/
def IsPlainId (L : Layout) (id : ℤ) : Prop := 0 ≤ id ∧ id < 2 ^ 31 ∧ ¬ L.Inside (handleOf id)

instance (L : Layout) (id : ℤ) : Decidable (L.IsPlainId id) :=
  inferInstanceAs (Decidable (_ ∧ _ ∧ _))

end Layout

/-- A kernel timer, with the slot it was made for; a plain timer has none. -/
structure KTimer where
  id : ℤ
  slot : Option SlotId
  deriving DecidableEq, Repr

/-- A call of libkernel. -/
inductive KtimerCall
  | create (clk : ℤ) (ev : Option KSigevent)
  | settime (id : ℤ) (flags : ℕ) (inp : Option Itimerspec)
  | gettime (id : ℤ)
  | getoverrun (id : ℤ)
  | delete (id : ℤ)
  deriving DecidableEq, Repr

/-- The values of `errno` that the file sets. -/
inductive Errno
  | ENOTSUP | EAGAIN
  deriving DecidableEq, Repr

/-- The slot table and the kernel timers there are. -/
structure World where
  /-- `g_slot`. -/
  slot : SlotId → Slot
  kernel : List KTimer
  errno : Option Errno

namespace World

@[simps] def setSlot (w : World) (i : SlotId) (x : Slot) : World :=
  { w with slot := fun j => if j = i then x else w.slot j }

/-- `ktimer_create` has made a timer. -/
@[simps] def ktimerCreate (w : World) (id : ℤ) (i : Option SlotId) : World :=
  { w with kernel := ⟨id, i⟩ :: w.kernel }

/-- `ktimer_delete`. -/
@[simps] def ktimerDelete (w : World) (id : ℤ) : World :=
  { w with kernel := w.kernel.eraseP fun k => k.id == id }

@[simps] def setErrno (w : World) (e : Errno) : World := { w with errno := some e }

/-- The search of `timer_create`. -/
def firstFree (w : World) : Option SlotId :=
  (List.finRange kMaxTimers).find? fun i => !(w.slot i).used

end World

/-- `slotOf`.  An address inside the table is one of a slot: nobody has any other, and the source
would read `used` from the middle of a slot there. -/
def slotOf (L : Layout) (w : World) (t : Handle) : Option SlotId :=
  if h : L.Inside t then
    if (w.slot (L.index t h)).used then some (L.index t h) else none
  else none

/-- What the platform answers while `timer_create` runs. -/
structure Answers where
  /-- `orbis_env_get("ORBIS_SIGEV_THREAD")`. -/
  env : Option (List Char)
  /-- What `ktimer_create` returns. -/
  rc : ℤ
  /-- The id it stores. -/
  id : ℤ
  /-- The thread of `pthread_create`, or its failure. -/
  thread : Option ℕ
  deriving DecidableEq, Repr

/-- `enabled`. -/
def enabled (a : Answers) : Bool := !(a.env.any fun e => e.head? == some '0')

/-- What `timer_create` comes to. -/
structure Created where
  world : World
  ret : ℤ
  /-- The timer it made. -/
  timer : Option Handle
  /-- What it stores through `out`. -/
  out : Option Handle
  calls : List KtimerCall

/-- `timer_create` of a timer without `SIGEV_THREAD`. -/
def createPlain (w : World) (clk : ℤ) (ev : Option SdkSigevent) (out : Bool) (a : Answers) : Created :=
  let calls := [.create clk (ev.map fun e => toKernel (some e))]
  if a.rc = 0 then
    ⟨w.ktimerCreate a.id none, a.rc, some (handleOf a.id),
      if out then some (handleOf a.id) else none, calls⟩
  else ⟨w, a.rc, none, none, calls⟩

/-- `timer_create` of a `SIGEV_THREAD` timer. -/
def createThread (L : Layout) (w : World) (clk : ℤ) (ev : SdkSigevent) (out : Bool) (a : Answers) :
    Created :=
  if !enabled a then ⟨w.setErrno .ENOTSUP, -1, none, none, []⟩
  else
    match w.firstFree with
    | none => ⟨w.setErrno .EAGAIN, -1, none, none, []⟩
    | some i =>
      let claimed := w.setSlot i { w.slot i with used := true }
      let create := KtimerCall.create clk (some { notify := sigevNone })
      if a.rc ≠ 0 then
        ⟨claimed.setSlot i { claimed.slot i with used := false }, -1, none, none, [create]⟩
      else
        let stored := (claimed.ktimerCreate a.id (some i)).setSlot i
          (Field.order.foldl (fun x f => x.store ev.toSigevent a.id f) (claimed.slot i))
        match a.thread with
        | none =>
          let gone := stored.ktimerDelete a.id
          ⟨(gone.setSlot i { gone.slot i with used := false }).setErrno .EAGAIN, -1, none, none,
            [create, .delete a.id]⟩
        | some t =>
          ⟨stored.setSlot i { stored.slot i with thread := some t }, 0, some (L.address i),
            if out then some (L.address i) else none, [create]⟩

/-- `timer_create`. -/
def timerCreate (L : Layout) (w : World) (clk : ℤ) (ev : Option SdkSigevent) (out : Bool)
    (a : Answers) : Created :=
  match ev with
  | none => createPlain w clk none out a
  | some e =>
    if e.notify ≠ sigevThread then createPlain w clk (some e) out a
    else createThread L w clk e out a

/-- What one of the other calls comes to. -/
structure Reply where
  world : World
  ret : ℤ
  calls : List KtimerCall

/-- `timer_settime`, with the clock as it reads it and the return of `ktimer_settime`. -/
def timerSettime (L : Layout) (w : World) (t : Handle) (flags : ℕ) (inp : Option Itimerspec)
    (now : Timespec) (rc : ℤ) : Reply :=
  match slotOf L w t with
  | none => ⟨w, rc, [.settime (idOf t) flags inp]⟩
  | some i =>
    ⟨w.setSlot i ((w.slot i).settimeLocked flags inp now), 0, [.settime (w.slot i).under flags inp]⟩

/-- The id `timer_gettime` and `timer_getoverrun` hand to the kernel. -/
def underOf (L : Layout) (w : World) (t : Handle) : ℤ :=
  match slotOf L w t with
  | none => idOf t
  | some i => (w.slot i).under

/-- `timer_gettime`, with the return of `ktimer_gettime`. -/
def timerGettime (L : Layout) (w : World) (t : Handle) (rc : ℤ) : Reply :=
  ⟨w, rc, [.gettime (underOf L w t)]⟩

/-- `timer_getoverrun`, with the return of `ktimer_getoverrun`. -/
def timerGetoverrun (L : Layout) (w : World) (t : Handle) (rc : ℤ) : Reply :=
  ⟨w, rc, [.getoverrun (underOf L w t)]⟩

/-- `timer_delete`, called from outside the callbacks, so that `pthread_join` waits for the thread to
leave `body`. -/
def timerDelete (L : Layout) (w : World) (t : Handle) : Reply :=
  match slotOf L w t with
  | none => ⟨w.ktimerDelete (idOf t), 0, [.delete (idOf t)]⟩
  | some i =>
    let stopped := w.setSlot i (w.slot i).deleteLocked
    let gone := stopped.ktimerDelete (stopped.slot i).under
    ⟨gone.setSlot i (gone.slot i).forget, 0, [.delete (stopped.slot i).under]⟩

/-! ### Runs -/

/-- The state between two calls, with the timers created and not yet deleted, by their handles. -/
structure Session where
  world : World
  /-- Those with `SIGEV_THREAD`. -/
  threads : List Handle
  /-- Those without. -/
  plain : List Handle

/-- Before the first call. -/
def Session.init : Session := ⟨⟨fun _ => {}, [], none⟩, [], []⟩

/-- One call, or what a notification thread does between two. -/
inductive Call
  | create (clk : ℤ) (ev : Option SdkSigevent) (out : Bool) (a : Answers)
  | settime (t : Handle) (flags : ℕ) (inp : Option Itimerspec) (now : Timespec) (rc : ℤ)
  | delete (t : Handle)
  /-- `body` goes on after `pthread_cond_timedwait`, with the clock as it reads it. -/
  | body (i : SlotId) (timedOut : Bool) (now : Timespec)
  deriving DecidableEq, Repr

/-- The event asks for `SIGEV_THREAD`. -/
def isThread (ev : Option SdkSigevent) : Bool := ev.any fun e => e.notify == sigevThread

/-- The state after a call. -/
def Session.next (L : Layout) (s : Session) : Call → Session
  | .create clk ev out a =>
    let r := timerCreate L s.world clk ev out a
    if isThread ev then ⟨r.world, r.timer.toList ++ s.threads, s.plain⟩
    else ⟨r.world, s.threads, r.timer.toList ++ s.plain⟩
  | .settime t flags inp now rc =>
    ⟨(timerSettime L s.world t flags inp now rc).world, s.threads, s.plain⟩
  | .delete t => ⟨(timerDelete L s.world t).world, s.threads.erase t, s.plain.erase t⟩
  | .body i timedOut now =>
    ⟨s.world.setSlot i ((s.world.slot i).afterTimedWait timedOut now).1, s.threads, s.plain⟩

/-- What the callers and the kernel keep to: handles are live, `ktimer_create` gives out an id that no
timer has, and for a plain timer one that is no address inside the table. -/
def Proper (L : Layout) (s : Session) : Call → Prop
  | .create _ ev _ a =>
    a.rc = 0 → a.id ∉ s.world.kernel.map KTimer.id ∧ (isThread ev = false → L.IsPlainId a.id)
  | .settime t _ _ _ _ | .delete t => t ∈ s.threads ∨ t ∈ s.plain
  | .body _ _ _ => True

/-- Sequential runs from the first call on. -/
def Session.Reaches (L : Layout) (cs : List Call) (s : Session) : Prop :=
  Lts.Run (Lts.Guarded (Proper L) (Lts.Next fun s c => some (Session.next L s c))) Session.init cs s

end OrbisCompat.Sigev
