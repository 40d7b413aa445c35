import OrbisCompat.Lib.Word64
import OrbisCompat.Lib.CTable
import OrbisCompat.Lib.Extent
import OrbisCompat.Lib.FlatMem
import OrbisCompat.Lib.Lts
import OrbisCompat.Kernel
import OrbisCompat.Jit.Basic
import OrbisCompat.Jit.FreeList
import OrbisCompat.Jit.Search
import OrbisCompat.Jit.Equiv.FreeList
import OrbisCompat.Jit.Arena
import OrbisCompat.Jit.Equiv.Search
import OrbisCompat.Jit.Equiv.Lengths
import OrbisCompat.Jit.System
import OrbisCompat.Jit.Equiv.Ledger
import OrbisCompat.Jit.Equiv.Invariant
import OrbisCompat.Jit.Equiv.Calls
import OrbisCompat.Jit.Equiv.Suballocator
import OrbisCompat.Lib.Tiling
import OrbisCompat.Mmap.Basic
import OrbisCompat.Mmap.Carve
import OrbisCompat.Mmap.Interpose
import OrbisCompat.Mmap.System
import OrbisCompat.Mmap.Equiv.Carve
import OrbisCompat.Mmap.Equiv.Table
import OrbisCompat.Mmap.Equiv.Calls
import OrbisCompat.Mmap.Equiv.Interposer
import OrbisCompat.Sigev.Basic
import OrbisCompat.Sigev.System
import OrbisCompat.Sigev.Equiv.Ownership
import OrbisCompat.Sigev.Equiv.Service
import OrbisCompat.Sigev.Equiv.Disarm
import OrbisCompat.Umtx.Basic
import OrbisCompat.Umtx.System
import OrbisCompat.Lib.Mutex
import OrbisCompat.Umtx.Equiv.Wakeup
import OrbisCompat.CxaGuard.Basic
import OrbisCompat.CxaGuard.System
import OrbisCompat.CxaGuard.Equiv.Steps
import OrbisCompat.CxaGuard.Equiv.ExactlyOnce
import OrbisCompat.CxaGuard.Equiv.Wakeup
import OrbisCompat.CxaGuard.Equiv.Owners
import OrbisCompat.CxaGuard.Equiv.Recursion
import OrbisCompat.Jit.Equiv.Inversion
import OrbisCompat.Jit.Equiv.Reach
import OrbisCompat.Jit.Equiv.Standing
import OrbisCompat.Jit.Equiv.Stray
import OrbisCompat.Jit.Equiv.Protect
import OrbisCompat.Jit.Equiv.Verdict
import OrbisCompat.Jit.Equiv.Walk
import OrbisCompat.Jit.Equiv.RoundTrip
import OrbisCompat.Mmap.Equiv.Census
import OrbisCompat.Mmap.Equiv.Unmap
import OrbisCompat.Sigev.Calls
import OrbisCompat.Sigev.Equiv.Handles
import OrbisCompat.Sigev.Equiv.OneToOne
import OrbisCompat.Lib.NodeHeap
import OrbisCompat.ThreadAtexit.Basic
import OrbisCompat.ThreadAtexit.Equiv.Stages
import OrbisCompat.ThreadAtexit.Equiv.Exit
import OrbisCompat.Env.Basic
import OrbisCompat.Env.Grammar
import OrbisCompat.Env.Equiv.Load
import OrbisCompat.Env.Equiv.Lookup
import OrbisCompat.Mmap.Describe
import OrbisCompat.Mmap.Equiv.Describe
import OrbisCompat.Mmap.Traffic
import OrbisCompat.Mmap.Equiv.Serve
import OrbisCompat.Mmap.Equiv.Traffic
import OrbisCompat.Mmap.Equiv.Blocks
import OrbisCompat.Mmap.Equiv.FullTable
import OrbisCompat.Lib.Utf8
import OrbisCompat.Lib.Word32
import OrbisCompat.Wchar.Equiv.Utf8
import OrbisCompat.Lib.Sink
import OrbisCompat.Wchar.Printf
import OrbisCompat.Wchar.Equiv.Produced
import OrbisCompat.Wchar.Equiv.Contract
import OrbisCompat.Wchar.Equiv.Grammar
import OrbisCompat.Wchar.Equiv.Narrow
import OrbisCompat.Wchar.Equiv.Decode
import OrbisCompat.Lib.Radix
import OrbisCompat.Sigev.Expiry
import OrbisCompat.Sigev.Equiv.Expiry
import OrbisCompat.Sigev.Equiv.Refused
import OrbisCompat.Umtx.Deadline
import OrbisCompat.Umtx.Equiv.Deadline
import OrbisCompat.Umtx.Register
import OrbisCompat.Umtx.Equiv.Register
import OrbisCompat.ThreadStack.Basic
import OrbisCompat.ThreadStack.Equiv.Create
import OrbisCompat.ThreadStack.System
import OrbisCompat.ThreadStack.Equiv.Floor
import OrbisCompat.Env.Equiv.Origin
import OrbisCompat.Wchar.Equiv.Valid
import OrbisCompat.Lib.Chunked
import OrbisCompat.Wchar.Equiv.Mbrtowc
import OrbisCompat.Wchar.Restart
import OrbisCompat.Wchar.Equiv.Machine
import OrbisCompat.Wchar.Equiv.Restart
import OrbisCompat.Wchar.Equiv.Srtowcs
import OrbisCompat.Wchar.Equiv.Calls
import OrbisCompat.Wchar.Equiv.Snrtowcs
import OrbisCompat.Wchar.Equiv.Parts
import OrbisCompat.Wchar.Bounded
import OrbisCompat.Wchar.Equiv.Bounded
import OrbisCompat.Lib.Utf16
import OrbisCompat.Wchar.Equiv.Utf16
import OrbisCompat.Wchar.Equiv.Mbtowc
import OrbisCompat.Lib.Buffer
import OrbisCompat.Lib.LongestMatch
import OrbisCompat.Wchar.Strto
import OrbisCompat.Wchar.Equiv.Strftime
import OrbisCompat.Wchar.Equiv.Strto
import OrbisCompat.Clock.Basic
import OrbisCompat.Clock.Equiv.Monotonic
import OrbisCompat.Lib.Layout
import OrbisCompat.Stat.Basic
import OrbisCompat.Stat.Equiv.Readers
import OrbisCompat.Backtrace.Basic
import OrbisCompat.Lib.Numeral
import OrbisCompat.Backtrace.Equiv.Symbols
import OrbisCompat.App.Basic
import OrbisCompat.App.Equiv.Lines
import OrbisCompat.App.RunConfig
import OrbisCompat.App.Equiv.RunConfig
import OrbisCompat.Boot.Basic
import OrbisCompat.Boot.Equiv.Registers
import OrbisCompat.Boot.Equiv.Code
import OrbisCompat.Lib.Words
import OrbisCompat.Wchar.String
import OrbisCompat.Wchar.Search
import OrbisCompat.Wchar.Equiv.Search
import OrbisCompat.Paths.Basic
import OrbisCompat.Paths.Cwd
import OrbisCompat.Paths.Equiv.Cwd
import OrbisCompat.Wchar.Equiv.Tokens
import OrbisCompat.Wchar.Equiv.Compare
import OrbisCompat.Wchar.Copy
import OrbisCompat.Wchar.Equiv.Copy
import OrbisCompat.Lib.LowWater
import OrbisCompat.Mem.Basic
import OrbisCompat.Mem.System
import OrbisCompat.Mem.Equiv.Census
import OrbisCompat.Mem.Equiv.Steps
import OrbisCompat.Mem.Equiv.Refusals
import OrbisCompat.Lib.Handover
import OrbisCompat.Lib.Ledger
import OrbisCompat.ThreadStack.Payload
import OrbisCompat.ThreadStack.Equiv.Payload
import OrbisCompat.AbortReport.Basic
import OrbisCompat.AbortReport.Equiv.Line
import OrbisCompat.AbortReport.System
import OrbisCompat.AbortReport.Equiv.Guard
import OrbisCompat.CvFix.Basic
import OrbisCompat.CvFix.Equiv.TimedWait
