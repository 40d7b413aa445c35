import OrbisCompat.Backtrace.Basic
import OrbisCompat.Mmap.Describe
import Mathlib.Data.Fin.Tuple.Basic

/-!
# `src/orbis_boot.cpp`: the handler of the crash signals

`ps4SignalAction` says what it can about a fault, line by line, and ends the process.  A line is the format that it gives to
`orbis_log_fatal` and the arguments behind it.
-/

namespace OrbisCompat.Boot

/-! ### The lines -/

/-- An argument of a format. -/
inductive Arg
  | int (v : ℤ)
  | word (v : UInt64)
  | ptr (p : UInt64)
  | str (s : String)
  | bytes (s : List UInt8)
  deriving DecidableEq, Repr

/-- A call of `orbis_log_fatal`. -/
structure Line where
  format : String
  args : List Arg
  deriving DecidableEq, Repr

/-! ### What the handler asks -/

/-- The numbers of the signals, which are the SDK's. -/
structure Signals where
  SIGSEGV : ℤ
  SIGBUS : ℤ
  SIGFPE : ℤ
  SIGILL : ℤ
  SIGABRT : ℤ

def signalName (s : Signals) (sig : ℤ) : String :=
  if sig = s.SIGSEGV then "SIGSEGV (bad address)"
  else if sig = s.SIGBUS then "SIGBUS (unaligned or unmapped)"
  else if sig = s.SIGFPE then "SIGFPE"
  else if sig = s.SIGILL then "SIGILL (illegal instruction)"
  else if sig = s.SIGABRT then "SIGABRT"
  else "?"

/-- The fields of `OrbisKernelVirtualQueryInfo` that are read: the mapping is from `unk01` to `unk02`, and `unk04` is its
protection. -/
structure VirtualQuery where
  unk01 : UInt64
  unk02 : UInt64
  unk04 : UInt32
  isFlexibleMemory : Bool
  isDirectMemory : Bool
  isStack : Bool
  isPooledMemory : Bool
  isCommitted : Bool
  name : List UInt8

/-- What stands still while the handler runs. -/
structure Machine where
  signals : Signals
  /-- The frames that the unwinder visits. -/
  frames : List UInt64
  /-- `sceKernelVirtualQuery(p, 0, ...)`; `none` when it fails. -/
  virtualQuery : UInt64 → Option VirtualQuery
  /-- Whether `orbis_mmap.cpp` serves from direct memory. -/
  direct : Bool
  /-- Its tables, and the bytes of the memory. -/
  mmap : Mmap.State

/-- The fields of `siginfo_t` that are read. -/
structure Siginfo where
  si_code : ℤ
  si_addr : UInt64

/-! ### `describeAddress` -/

/-- `rwx`. -/
def rwx (prot : UInt32) : String :=
  String.ofList [if prot &&& 1 ≠ 0 then 'r' else '-', if prot &&& 2 ≠ 0 then 'w' else '-', if prot &&& 4 ≠ 0 then 'x' else '-']

/-- `pool`. -/
def pool (vq : VirtualQuery) : String :=
  if vq.isDirectMemory then "direct"
  else if vq.isFlexibleMemory then "flexible"
  else if vq.isPooledMemory then "pooled"
  else if vq.isStack then "stack"
  else "other"

/-- The line about the mapping that an address is in. -/
def mappingLine (what : String) (p : UInt64) (vq : VirtualQuery) : Line :=
  let name := vq.name.takeWhile (· ≠ 0)
  ⟨"fatal: %s %p is in %p-%p prot 0x%x (%s) %s%s%s%s",
    [.str what, .ptr p, .ptr vq.unk01, .ptr vq.unk02, .int vq.unk04.toNat, .str (rwx vq.unk04), .str (pool vq),
      .str (if vq.isCommitted then ", committed" else ", NOT committed"), .str (if name ≠ [] then ", name " else ""), .bytes name]⟩

/-- The line about the carve-out that an address is in. -/
def spanLine (what : String) (span : Mmap.MmapDirectSpan) : Line :=
  if span.blockFound then
    ⟨"fatal: %s is carve-out %u (base %p) +0x%llx, in a %s block of %llu KiB at +0x%llx%s",
      [.str what, .int span.index, .ptr (UInt64.ofNat span.base), .int span.offset, .str (if span.blockUsed then "LIVE" else "FREED"),
        .int (span.blockSize / 1024 : ℕ), .int span.blockOff, .str (if span.blockUsed then "" else " - this is a USE AFTER FREE")]⟩
  else
    ⟨"fatal: %s is carve-out %u (base %p) +0x%llx, in no block of it",
      [.str what, .int span.index, .ptr (UInt64.ofNat span.base), .int span.offset]⟩

def describeAddress (k : Machine) (what : String) (p : UInt64) : List Line :=
  match k.virtualQuery p with
  | none => [⟨"fatal: %s %p is in NO mapping the kernel will describe - not mapped", [.str what, .ptr p]⟩]
  | some vq => mappingLine what p vq :: ((Mmap.mmapDirectDescribe k.direct k.mmap p.toNat).map (spanLine what)).toList

/-! ### `dumpCodeAt` -/

/-- `%02x`. -/
def hexByte (b : UInt8) : String := String.ofList [Nat.digitChar (b.toNat / 16), Nat.digitChar (b.toNat % 16)]

/-- The window around `rip` in a mapping: `from` and `to`, or `none` when nothing is to be read. -/
def codeWindow (vq : VirtualQuery) (rip : UInt64) : Option (UInt64 × UInt64) :=
  if !vq.isCommitted || vq.unk04 &&& 1 == 0 then none
  else
    let lo := vq.unk01
    let hi := vq.unk02
    if rip < lo ∨ rip ≥ hi then none
    else some (if rip - lo ≥ 16 then rip - 16 else lo, if hi - rip > 16 then rip + 16 else hi)

/-- The addresses of a row, `for (b = row; b < to && b < row + 16; ++b)`, with `stop` for `to`. -/
def rowAddrs (row stop : ℕ) : List ℕ := List.range' row (min (stop - row) 16)

/-- The line of a row. -/
def rowLine (mem : FlatMem) (rip row stop : ℕ) : Line :=
  ⟨"fatal: code %p%s: %s",
    [.ptr (UInt64.ofNat row), .str (if rip ≥ row ∧ rip < row + 16 then " (rip in this row)" else ""),
      .str (" ".intercalate ((rowAddrs row stop).map fun b => hexByte (mem b)))]⟩

def dumpCodeAt (k : Machine) (p : UInt64) : List Line :=
  match (k.virtualQuery p).bind (codeWindow · p) with
  | none => []
  | some (lo, hi) =>
    (List.range ((hi.toNat - lo.toNat + 15) / 16)).map fun i => rowLine k.mmap.mem p.toNat (lo.toNat + 16 * i) hi.toNat

/-! ### The context -/

/-- The words behind the third argument. -/
abbrev Context := Vector UInt64 96

def MC_TRAPNO : Fin 25 := 16
def MC_ADDR : Fin 25 := 17
def MC_ERR : Fin 25 := 19
def MC_RIP : Fin 25 := 20
def MC_CS : Fin 25 := 21
def MC_RFLAGS : Fin 25 := 22
def MC_RSP : Fin 25 := 23
def MC_SS : Fin 25 := 24

variable (w : Context) (mc : Fin 72)

/-- `w[mc + k]`. -/
def Context.field (w : Context) (mc : Fin 72) (k : Fin 25) : UInt64 := w.get ⟨mc.val + k.val, by omega⟩

/-- The selectors of a user thread, three words apart. -/
def isPair : Bool := w.field mc MC_CS == 0x43 && w.field mc MC_SS == 0x3b

/-- The loop that looks for them, as the `mc` that it leaves; `none` for `-1`. -/
def findMcontext : Option (Fin 72) := Fin.find? (isPair w)

def ripFormat : String := "fatal: rip %016llx  rsp %016llx  addr %016llx"

def ripLine : Line := ⟨ripFormat, [.word (w.field mc MC_RIP), .word (w.field mc MC_RSP), .word (w.field mc MC_ADDR)]⟩

def trapFormat : String := "fatal: trapno %u  err %llu  rflags %016llx  (mcontext at ctx[%d])"

def trapLine : Line :=
  ⟨trapFormat,
    [.int (w.field mc MC_TRAPNO &&& 0xffffffff).toNat, .int (w.field mc MC_ERR).toNat, .word (w.field mc MC_RFLAGS), .int mc.val]⟩

/-- The lines under the names of the registers, and about the addresses in them. -/
def namedLines (k : Machine) : List Line :=
  let rip := w.field mc MC_RIP
  let addr := w.field mc MC_ADDR
  ripLine w mc :: trapLine w mc :: (describeAddress k "rip" rip ++ (if addr ≠ 0 then describeAddress k "addr" addr else []) ++
    dumpCodeAt k rip)

def rawFormat : String := "fatal: ctx[%02d..%02d] %016llx %016llx %016llx %016llx"

/-- Four words of the raw dump, from `base` on. -/
def rawLine (i : Fin 16) : Line :=
  let base := 4 * i.val
  ⟨rawFormat,
    [.int base, .int (base + 3), .word (w.get ⟨base, by omega⟩), .word (w.get ⟨base + 1, by omega⟩),
      .word (w.get ⟨base + 2, by omega⟩), .word (w.get ⟨base + 3, by omega⟩)]⟩

/-- The raw dump. -/
def rawLines : List Line := (List.finRange 16).map (rawLine w)

/-! ### `ps4SignalAction` -/

/-- `info` is trusted as a pointer from a page on. -/
def infoIsPointer (info : UInt64) : Bool := info ≥ 0x4000

/-- What the handler says of the signal; `si` is what `info` points to when it is a pointer. -/
def signalLine (k : Machine) (sig : ℤ) (info : UInt64) (si : Siginfo) : Line :=
  if infoIsPointer info then
    ⟨"fatal: signal %d - %s, si_code %d, fault address %p",
      [.int sig, .str (signalName k.signals sig), .int si.si_code, .ptr si.si_addr]⟩
  else
    ⟨"fatal: signal %d - %s, and NO siginfo: the second argument was %p, which is " ++
      "too small to be a pointer. The kernel called this handler with FreeBSD's " ++
      "original (sig, code, scp) signature, so SA_SIGINFO did not reach it - check the " ++
      "SA_* values in orbis-compat/include/signal.h against this SDK's bits/signal.h",
      [.int sig, .str (signalName k.signals sig), .ptr info]⟩

/-- The line for up to four frames from the frame `i` on. -/
def frameLine (frames : List UInt64) (i : ℕ) : Line :=
  let r := if frames.length - i < 4 then frames.length - i else 4
  ⟨"fatal: frame[%02d..%02d] %016llx %016llx %016llx %016llx",
    .int i :: .int (i + r - 1) :: (List.range 4).map fun j => .word (if r > j then frames.getD (i + j) 0 else 0)⟩

def frameLines (frames : List UInt64) : List Line :=
  if frames.length > 0 then (List.range ((frames.length + 3) / 4)).map fun j => frameLine frames (4 * j)
  else [⟨"fatal: backtrace returned %d frames", [.int frames.length]⟩]

/-- What the handler says of the context. -/
def contextLines (k : Machine) (info : UInt64) (si : Siginfo) : List Line :=
  match findMcontext w with
  | some mc =>
    let addrAgrees := infoIsPointer info && w.field mc MC_ADDR == si.si_addr
    if addrAgrees || !infoIsPointer info then namedLines w mc k
    else
      ⟨"fatal: found a context at ctx[%d] but mc_addr %016llx does not match " ++
        "si_addr %p - not trusting the field names, raw words follow",
        [.int mc.val, .word (w.field mc MC_ADDR), .ptr (if infoIsPointer info then si.si_addr else 0)]⟩ :: rawLines w
  | none =>
    ⟨"fatal: no mc_cs/mc_ss pair (0x43, 0x3b) in the first %d words of the " ++
      "context - the layout is not FreeBSD's amd64 mcontext, raw words follow", [.int 96]⟩ :: rawLines w

/-- What a call of the handler does. -/
inductive Event
  | log (l : Line)
  | fatalAction (what : String)
  | exit (code : ℤ)
  deriving DecidableEq, Repr

/-- The lines of a call that is not made from within another; `uctx` is `none` for `nullptr`. -/
def actionLines (k : Machine) (sig : ℤ) (info : UInt64) (si : Siginfo) (uctx : Option Context) : List Line :=
  signalLine k sig info si :: (frameLines (Backtrace.backtrace k.frames false 24) ++
    uctx.elim [] fun w => contextLines w k info si)

/-- `ps4SignalAction`: `reentered` behind the call, and what it does, when `orbis_fatal_action` returns. -/
def ps4SignalAction (k : Machine) (reentered : Bool) (sig : ℤ) (info : UInt64) (si : Siginfo) (uctx : Option Context) :
    Bool × List Event :=
  if reentered then (true, [.exit 2])
  else (true, (actionLines k sig info si uctx).map .log ++ [.fatalAction "signal", .exit 2])

end OrbisCompat.Boot
