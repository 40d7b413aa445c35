import OrbisCompat.Lib.Buffer
import OrbisCompat.Lib.LongestMatch
import OrbisCompat.Lib.Word32
import Mathlib.Data.BitVec

/-!
# `src/orbis_wchar32.c`: `wcsto*`

A wide string is the list of its elements up to the terminator, a pointer into it the distance from its start.  What the narrow
`strto*` do is a parameter (`Narrow`): they skip white space, and convert the longest prefix that is a subject sequence.
-/

namespace OrbisCompat.Wchar

/-! ### White space -/

/-- The loop of `wcschr`. -/
def wcschrLoop (c : ℕ) : List ℕ → Option ℕ
  | [] => none
  | x :: s => if x ≠ c then (wcschrLoop c s).map (· + 1) else some 0

/-- `wcschr`, as the distance from `s`. -/
def wcschr (s : List ℕ) (c : ℕ) : Option ℕ := if c = 0 then some s.length else wcschrLoop c s

def spaces : List ℕ :=
  [' '.toNat, '\t'.toNat, '\n'.toNat, '\r'.toNat, 11, 12, 0x0085,
    0x2000, 0x2001, 0x2002, 0x2003, 0x2004, 0x2005,
    0x2006, 0x2008, 0x2009, 0x200a,
    0x2028, 0x2029, 0x205f, 0x3000]

def iswspace (wc : ℕ) : Bool := wc ≠ 0 ∧ (wcschr spaces wc).isSome

/-- `w32_skip_space`. -/
def w32SkipSpace : List ℕ → ℕ
  | [] => 0
  | c :: t => if iswspace c then w32SkipSpace t + 1 else 0

/-! ### The ASCII prefix -/

/-- The memory a call gets. -/
structure Storage where
  /-- What an array of so many elements holds before anything is stored. -/
  uninit : ℕ → List ℕ
  length_uninit : ∀ n, (uninit n).length = n
  /-- Whether there are so many bytes. -/
  malloc : ℕ → Bool
  /-- What `free` makes of `errno`. -/
  free : ℤ → ℤ

/-- The loop `while (t[k] > 0 && t[k] < 0x80)`. -/
def asciiRun : List ℕ → ℕ
  | [] => 0
  | c :: t => if Word32.toInt c > 0 ∧ Word32.toInt c < 0x80 then asciiRun t + 1 else 0

/-- `(char)c`, as a byte. -/
def toChar (c : ℕ) : ℕ := c % 256

/-- `w32_ascii_prefix`, and whether the buffer is on the heap; `none` when it stores behind the end of a buffer. -/
def w32AsciiPrefix (M : Storage) (t stack : List ℕ) : Option (List ℕ × Bool) :=
  let k := asciiRun t
  let (b, k, heap) :=
    if k ≥ stack.length then
      -- no memory: only what fits on the stack is parsed
      if M.malloc (k + 1) then (M.uninit (k + 1), k, true) else (stack, stack.length - 1, false)
    else (stack, k, false)
  do
    let b ← Buffer.storeFrom b 0 ((t.take k).map toChar)
    let b ← Buffer.store b k 0
    some (b, heap)

/-- `w32_release`, as what `errno` is after it. -/
def w32Release (M : Storage) (heap : Bool) (errno : ℤ) : ℤ :=
  if heap then
    let e := errno
    let _errno := M.free errno
    e
  else errno

/-! ### The narrow functions -/

/-- The characters of white space in the C locale. -/
def isspace (c : ℕ) : Bool := c = ' '.toNat ∨ 9 ≤ c ∧ c ≤ 13

/-- What a narrow function answers. -/
structure Strto (V : Type) where
  value : V
  errno : ℤ
  /-- The distance of `*end` from the string. -/
  stop : ℕ
  deriving DecidableEq, Repr

/-- A narrow function, at one base, and what is known of it. -/
structure Narrow (V : Type) where
  /-- Of a string, and `errno` before the call. -/
  call : List ℕ → ℤ → Strto V
  /-- The sequences it converts. -/
  subject : List ℕ → Bool
  not_nil : subject [] = false
  /-- No number contains `@`. -/
  at_not_mem : ∀ w, subject w = true → '@'.toNat ∉ w
  /-- The value, and `errno`, of a subject sequence, or of none. -/
  value : Option (List ℕ) → V
  errno : Option (List ℕ) → ℤ → ℤ
  converts : ∀ s e w, 0 ∉ s → LongestMatch.IsLongest subject (s.dropWhile isspace) w →
    call s e = ⟨value (some w), errno (some w) e, s.length - (s.dropWhile isspace).length + w.length⟩
  fails : ∀ s e, 0 ∉ s → (∀ v, v <+: s.dropWhile isspace → subject v = false) →
    call s e = ⟨value none, errno none e, 0⟩

/-- The narrow functions, over the types of the floating point numbers. -/
structure Stdlib (Flt Dbl LDbl : Type) where
  strtol : BitVec 32 → Narrow (BitVec 64)
  strtoll : BitVec 32 → Narrow (BitVec 64)
  strtoul : BitVec 32 → Narrow (BitVec 64)
  strtoull : BitVec 32 → Narrow (BitVec 64)
  strtof : Narrow Flt
  strtod : Narrow Dbl
  strtold : Narrow LDbl

/-! ### The wide functions -/

/-- What a wide function answers. -/
structure Wcsto (V : Type) where
  value : V
  errno : ℤ
  /-- What it stores to `*p`, as the distance from the string. -/
  p : Option ℕ
  deriving DecidableEq, Repr

/-- `W32_STRTO_INT` and `W32_STRTO_FLT`; `null` when `p` is.  `none` when it stores behind the end of a buffer, or hands on
one without a terminator. -/
def wcsto {V : Type} (narrow : List ℕ → ℤ → Strto V) (M : Storage) (null : Bool) (s : List ℕ) (errno : ℤ) :
    Option (Wcsto V) := do
  let t := w32SkipSpace s
  let (b, heap) ← w32AsciiPrefix M (s.drop t) (M.uninit 128)
  let text ← Buffer.cstr 0 b
  let y := narrow text errno
  -- nothing converted: the white space is not skipped either
  let p := if null then none else some (if y.stop ≠ 0 then t + y.stop else 0)
  some { value := y.value, errno := w32Release M heap y.errno, p }

variable {Flt Dbl LDbl : Type} (lib : Stdlib Flt Dbl LDbl)

def wcstol (base : BitVec 32) := wcsto (lib.strtol base).call

def wcstoll (base : BitVec 32) := wcsto (lib.strtoll base).call

def wcstoul (base : BitVec 32) := wcsto (lib.strtoul base).call

def wcstoull (base : BitVec 32) := wcsto (lib.strtoull base).call

def wcstof := wcsto lib.strtof.call

def wcstod := wcsto lib.strtod.call

def wcstold := wcsto lib.strtold.call

/-! ### The string the narrow functions are to see -/

/-- The wide string as a narrow one. -/
def asNarrow (s : List ℕ) : List ℕ :=
  List.replicate (s.takeWhile iswspace).length ' '.toNat ++
    (s.dropWhile iswspace).map fun c => if c < 0x80 then c else '@'.toNat

end OrbisCompat.Wchar
