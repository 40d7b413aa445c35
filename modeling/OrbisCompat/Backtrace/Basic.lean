import OrbisCompat.Lib.Buffer
import OrbisCompat.Lib.FlatMem

/-!
# `src/orbis_backtrace.c`

The unwinder calls `orbis_unwind_step` for every frame, the innermost first, until it is told to stop.  What it knows of a
frame is its instruction pointer.  `backtrace_symbols` lays a table of pointers and the strings they point to out in one block.
-/

namespace OrbisCompat.Backtrace

/-! ### The frames -/

/-- `struct orbis_unwind_state`, with the frames in `buffer` so far; `count` is how many these are. -/
structure UnwindState where
  buffer : List UInt64 := []
  size : ℤ
  skip : ℤ

/-- `orbis_unwind_step`, for a frame with the instruction pointer `ip`; `none` for `_URC_END_OF_STACK`. -/
def orbisUnwindStep (ip : UInt64) (st : UnwindState) : Option UnwindState :=
  if st.skip > 0 then some { st with skip := st.skip - 1 }
  else if st.buffer.length ≥ st.size then none
  else if ip = 0 then none
  else some { st with buffer := st.buffer ++ [ip] }

/-- `_Unwind_Backtrace`, from the frames there are. -/
def unwindBacktrace : List UInt64 → UnwindState → UnwindState
  | [], st => st
  | ip :: frames, st =>
    match orbisUnwindStep ip st with
    | none => st
    | some st => unwindBacktrace frames st

/-- `orbis_unwind_collect`, as what it has collected; `null` when `buffer` is. -/
def orbisUnwindCollect (frames : List UInt64) (null : Bool) (size skip : ℤ) : List UInt64 :=
  if null ∨ size ≤ 0 then [] else (unwindBacktrace frames { size, skip }).buffer

/-- `backtrace`, when these are the frames that the unwinder visits. -/
def backtrace (frames : List UInt64) (null : Bool) (size : ℤ) : List UInt64 := orbisUnwindCollect frames null size 1

/-! ### The texts -/

/-- `sizeof(uintptr_t)`. -/
def wordSize : ℕ := 8

/-- The characters of the digits. -/
def digits : List UInt8 := "0123456789abcdef".toList.map Char.toUInt8

/-- The loop of `orbis_write_hex`, as the digits it writes; `shift` is `4 * k - 4`. -/
def writeDigits (v : UInt64) : ℕ → Bool → List UInt8
  | 0, _ => []
  | k + 1, started =>
    let shift := 4 * k
    let nibble := (v >>> UInt64.ofNat shift &&& 0xF).toNat
    if nibble ≠ 0 ∨ started ∨ shift = 0 then digits.getD nibble 0 :: writeDigits v k true
    else writeDigits v k started

/-- `orbis_write_hex`, as what it writes from `out` on.  It returns how much that is. -/
def orbisWriteHex (v : UInt64) : List UInt8 :=
  ['0'.toUInt8, 'x'.toUInt8] ++ writeDigits v (wordSize * 2) false ++ ['\n'.toUInt8]

/-! ### A text to a file -/

/-- `sizeof line`. -/
def lineSize : ℕ := 2 + wordSize * 2 + 2

/-- The loop of `backtrace_symbols_fd` from `i` on, `k` times, as what it hands to `write`; `none` when it reads or stores
behind the end of an array. -/
def fdLoop (line : Vector UInt8 lineSize) (buffer : List UInt64) : ℕ → ℕ → Option (List (List UInt8))
  | 0, _ => some []
  | k + 1, i => do
    let v ← buffer[i]?
    let text := orbisWriteHex v
    let out ← Buffer.storeFrom line.toList 0 text
    let rest ← fdLoop line buffer k (i + 1)
    some (out.take text.length :: rest)

/-- `backtrace_symbols_fd`; `buffer` is `none` when it is `NULL`, and `line` what the array of the loop holds at first. -/
def backtraceSymbolsFd (line : Vector UInt8 lineSize) (buffer : Option (List UInt64)) (size : Int32) :
    Option (List (List UInt8)) :=
  match buffer with
  | none => some []
  | some buffer => fdLoop line buffer size.toInt.toNat 0

/-! ### Texts in a block -/

/-- `malloc`: the address of a block, within the address space. -/
structure Malloc where
  call : UInt64 → Option ℕ
  fits : ∀ n p, call n = some p → p + n.toNat ≤ 2 ^ 64

/-- The distance of a string from the next. -/
def stride : ℕ := 2 + wordSize * 2 + 1

/-- The size of the block. -/
def blockSize (size : Int32) : UInt64 :=
  size.toInt64.toUInt64 * UInt64.ofNat wordSize + size.toInt64.toUInt64 * UInt64.ofNat stride

/-- The loop of `backtrace_symbols` from `i` on, `k` times; `none` when it reads behind the end of the array. -/
def symbolsLoop (buffer : List UInt64) (out : ℕ) : ℕ → ℕ → ℕ → FlatMem → Option FlatMem
  | 0, _, _, m => some m
  | k + 1, i, text, m => do
    let v ← buffer[i]?
    let hex := orbisWriteHex v
    let n := hex.length
    let m := FlatMem.store m text hex
    -- over the newline
    let m := FlatMem.store m (text + (n - 1)) [0]
    let m := FlatMem.store64 m (out + wordSize * i) text
    symbolsLoop buffer out k (i + 1) (text + stride) m

/-- `backtrace_symbols`: what it returns, and the memory after it. -/
def backtraceSymbols (malloc : Malloc) (m : FlatMem) (buffer : Option (List UInt64)) (size : Int32) :
    Option (Option ℕ × FlatMem) :=
  match buffer with
  | none => some (none, m)
  | some buffer =>
    if size ≤ 0 then some (none, m)
    else
      match malloc.call (blockSize size) with
      | none => some (none, m)
      | some out => do
        let n := size.toInt.toNat
        let m ← symbolsLoop buffer out n 0 (out + wordSize * n) m
        some (some out, m)

end OrbisCompat.Backtrace
