import OrbisCompat.Sigev.Equiv.Ownership

/-!
# One serving thread per slot

`timer_delete` joins the notification thread before it gives the slot back, but the join returns at
once when the caller is the notification thread itself: a callback that deletes its own timer.  The
slot is then free while its old thread is still on the way back to the loop, where it will read the
`stop` and `armed` of the slot again.  A `timer_create` in between resets both, so the old thread
stays, next to the new one.

As long as no slot is taken in that gap (`NoReuse`), a slot has one thread, and every thread calls
the callback of its own timer.
-/

namespace OrbisCompat.Sigev

theorem Reaches.owned {ls : List Label} {s : State} (h : Reaches NoReuse ls s) : Owned s :=
  Lts.Run.preserves (P := Owned) (fun _ _ _ hs hstep => hs.step hstep.1 hstep.2) h owned_init

end OrbisCompat.Sigev
