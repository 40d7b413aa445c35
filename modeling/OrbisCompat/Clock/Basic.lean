import OrbisCompat.Umtx.Deadline

/-!
# `src/orbis_clock.cpp`: `monotonicNow`

The monotonic clock counts the ticks of a counter from its first use on, and splits the seconds off before it scales the rest
to nanoseconds.
-/

namespace OrbisCompat.Clock

open OrbisCompat.Umtx (Timespec)

structure ClockBase where
  /-- Counter ticks per second, 0 if the SDK would not say. -/
  freq : UInt64 := 0
  /-- The counter at first use. -/
  origin : UInt64 := 0
  deriving DecidableEq, Repr

/-- What the kernel's calls return during a call of `monotonicNow`. -/
structure Kernel where
  /-- `sceKernelGetProcessTimeCounterFrequency`. -/
  frequency : UInt64
  /-- `sceKernelGetProcessTimeCounter`, when it is called for the origin. -/
  first : UInt64
  /-- `sceKernelGetProcessTimeCounter`, when it is called for the time. -/
  counter : UInt64
  /-- `sceKernelGetProcessTime`. -/
  processTime : UInt64

/-- `clockBase`; `none` before the first use. -/
def clockBase (base : Option ClockBase) (k : Kernel) : ClockBase := base.getD ⟨k.frequency, k.first⟩

/-- `monotonicNow`: the time, and the base from then on. -/
def monotonicNow (base : Option ClockBase) (k : Kernel) : Timespec × ClockBase :=
  let b := clockBase base k
  if b.freq = 0 then
    -- no frequency: the time of the process, in microseconds
    let us := k.processTime
    (⟨(us / 1000000).toInt64, (us % 1000000 * 1000).toInt64⟩, b)
  else
    -- the seconds first, so that only a remainder is scaled
    let d := k.counter - b.origin
    (⟨(d / b.freq).toInt64, (d % b.freq * 1000000000 / b.freq).toInt64⟩, b)

/-- The times of one call after the other. -/
def times (base : Option ClockBase) : List Kernel → List Timespec
  | [] => []
  | k :: ks => (monotonicNow base k).1 :: times (some (monotonicNow base k).2) ks

end OrbisCompat.Clock
