import OrbisCompat.Lib.Word32
import OrbisCompat.Lib.Word64
import Mathlib.Data.Int.Notation

/-!
# `src/orbis_mem.cpp`: the replaced `operator new` and the census

What an `operator new` asks the C allocator for and hands out, and the lines that a census and a refusal print.
A size is a `size_t`, `rc` and `oomAnnounced` are the bits of an `int`.  The eight forms of `operator new` differ
in whether they align and whether they throw; the array forms are the others word for word.

The lines are kept as the numbers they print, without the words around them.  The probe of libkernel's internal
memory, and the thread census, which prints the counters of another file, are not modelled.
-/

namespace OrbisCompat.Mem

/-- A call of an `operator new`. -/
structure Request where
  size : ℕ
  /-- The `align_val_t`, in the forms that take one. -/
  align : Option ℕ := none
  /-- Not a `nothrow` form. -/
  throws : Bool := true
  deriving DecidableEq, Repr

/-- What the C allocator is asked for. -/
inductive Alloc
  | malloc (n : ℕ)
  | posixMemalign (align n : ℕ)
  deriving DecidableEq, Repr

/-- `allocPlain` and `allocAligned`, after `noteRequest`. -/
def Request.alloc (r : Request) : Alloc :=
  let n := if r.size ≠ 0 then r.size else 1
  match r.align with
  | none => .malloc n
  | some align => .posixMemalign (if align < 8 then 8 else align) n

/-- What it answers: what `posix_memalign` returns, and the pointer, `0` for `NULL`. -/
structure Answer where
  rc : ℕ := 0
  p : ℕ
  deriving DecidableEq, Repr

/-- What `allocPlain` and `allocAligned` return. -/
def Request.pointer (r : Request) (a : Answer) : ℕ :=
  match r.align with
  | none => a.p
  | some _ => if a.rc ≠ 0 then 0 else a.p

/-- How an `operator new` ends. -/
inductive Outcome
  | pointer (p : ℕ)
  | null
  | badAlloc
  deriving DecidableEq, Repr

/-- How a refused one ends. -/
def Request.refused (r : Request) : Outcome := if r.throws then .badAlloc else .null

/-- What is asked of the pools for. -/
inductive Purpose
  /-- `memCensus`, with its `where`. -/
  | census (place : String)
  /-- `announceOom`. -/
  | refusal (r : Request)
  deriving DecidableEq, Repr

/-- The locals of `report` and of `announceOom`. -/
structure Locals where
  flex : ℕ
  flexRc : ℕ := 0
  boot : ℕ := 0
  low : ℕ := 0
  dRc : ℕ := 0
  dAvail : ℕ := 0
  dTotal : ℕ := 0
  biggest : ℕ := 0
  deriving DecidableEq, Repr

/-- What a line prints; sizes of pools are in KiB. -/
inductive Line
  | flexibleFailed (place : String) (rc : ℕ)
  | flexible (place : String) (avail boot low : ℕ) (consumed : ℤ)
  | directUnread (place : String) (total rc : ℕ)
  | direct (place : String) (total avail : ℕ)
  /-- The line of `mmapDirectReport`. -/
  | mmapDirect (place : String)
  | refused (want align : ℕ)
  | refusedFlexible (avail rc boot low : ℕ)
  | refusedDirect (total avail rc : ℕ)
  | biggest (n : ℕ)
  deriving DecidableEq, Repr

/-- `(int64_t(boot)-int64_t(flex))/1024`, the difference wrapping. -/
def consumed (boot flex : ℕ) : ℤ := (((boot : ℤ) - flex).bmod (2 ^ 64)).tdiv 1024

/-- The lines of `report`. -/
def flexibleLine (place : String) (d : Locals) : Line :=
  if d.flexRc ≠ 0 then .flexibleFailed place d.flexRc
  else .flexible place (d.flex / 1024) (d.boot / 1024) (d.low / 1024) (consumed d.boot d.flex)

def directLine (place : String) (d : Locals) : Line :=
  if d.dRc ≠ 0 then .directUnread place (d.dTotal / 1024) d.dRc
  else .direct place (d.dTotal / 1024) (d.dAvail / 1024)

/-- What remains to do after `flexAvailable`, one access to shared memory or call each. -/
inductive Item
  | loadQueryErr
  | loadBoot
  | loadLow
  | loadBiggest
  /-- `directAvailable` and `ogDirectTotal`. -/
  | askDirect
  | print (line : Locals → Line)

/-- `report` and `announceOom` after `flexAvailable`, in the order of the source. -/
def Purpose.items : Purpose → List Item
  | .census place =>
    [.loadQueryErr, .loadBoot, .loadLow, .askDirect, .print (flexibleLine place), .print (directLine place),
      .print fun _ => .mmapDirect place]
  | .refusal r =>
    [.loadQueryErr, .askDirect, .print fun _ => .refused r.size (r.align.getD 0),
      .loadBoot, .loadLow, .print fun d => .refusedFlexible (d.flex / 1024) d.flexRc (d.boot / 1024) (d.low / 1024),
      .print fun d => .refusedDirect (d.dTotal / 1024) (d.dAvail / 1024) d.dRc,
      .loadBiggest, .print fun d => .biggest d.biggest]

end OrbisCompat.Mem
