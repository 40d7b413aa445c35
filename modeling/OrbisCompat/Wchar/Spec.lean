import Mathlib.Data.List.Basic
import OrbisCompat.Wchar.Multibyte

/-!
# `src/orbis_wchar32.c`: reading a conversion specification

The part of `vswprintf` between a `%` and the `switch` over the conversion, with the arguments that it fetches.

The types of the arguments are those of the machine: an `int` has 32 bits, and every integer type from `long` on
has 64.  The floating types are only handed on, so they are parameters.
-/

namespace OrbisCompat.Wchar

/-- `INT_MAX`. -/
def INT_MAX : ℕ := 2 ^ 31 - 1

/-- The ways out of a round of the loop.  They all come before the round's first `w32_put`. -/
inductive Exit
  /-- `goto inval`. -/
  | inval
  /-- `goto overflow`. -/
  | overflow
  /-- `goto fail`, with what the file itself has put into `errno`. -/
  | fail (errno : Option Errno)
  /-- There is no argument of the type that `va_arg` asks for, which C leaves undefined. -/
  | undefined
  deriving DecidableEq, Repr

/-- An argument, with the type it is passed at. -/
inductive Arg (Dbl LDbl : Type)
  /-- `int`, `unsigned` or `wint_t`. -/
  | int (v : BitVec 32)
  /-- `long`, `long long`, `intmax_t`, `size_t`, `ptrdiff_t` or one of their unsigned counterparts. -/
  | long (v : BitVec 64)
  | double (v : Dbl)
  | longDouble (v : LDbl)
  /-- `char *`; `none` for a null pointer. -/
  | str (s : Option (List ℕ))
  /-- `wchar_t *`; `none` for a null pointer. -/
  | wstr (s : Option (List ℕ))
  /-- `void *`. -/
  | ptr (v : BitVec 64)
  deriving DecidableEq, Repr

variable {Dbl LDbl : Type}

namespace Arg

def asInt : Arg Dbl LDbl → Option (BitVec 32)
  | int v => some v
  | _ => none

def asLong : Arg Dbl LDbl → Option (BitVec 64)
  | long v => some v
  | _ => none

def asDouble : Arg Dbl LDbl → Option Dbl
  | double v => some v
  | _ => none

def asLongDouble : Arg Dbl LDbl → Option LDbl
  | longDouble v => some v
  | _ => none

def asStr : Arg Dbl LDbl → Option (Option (List ℕ))
  | str s => some s
  | _ => none

def asWstr : Arg Dbl LDbl → Option (Option (List ℕ))
  | wstr s => some s
  | _ => none

def asPtr : Arg Dbl LDbl → Option (BitVec 64)
  | ptr v => some v
  | _ => none

end Arg

/-- `va_arg`, at the type that `as` reads. -/
def vaArg {α : Type} (as : Arg Dbl LDbl → Option α) : List (Arg Dbl LDbl) → Except Exit (α × List (Arg Dbl LDbl))
  | [] => .error .undefined
  | a :: aq =>
    match as a with
    | some v => .ok (v, aq)
    | none => .error .undefined

/-- `(unsigned)c - '0' < 10`. -/
def isDigit (c : ℕ) : Bool := Word32.sub c '0'.toNat < 10

/-- `w32_getint`, with `i` read so far: `none` for `-1`. -/
def w32Getint (i : Option ℕ) : List ℕ → Option ℕ × List ℕ
  | [] => (i, [])
  | c :: s =>
    if isDigit c then
      let d := c - '0'.toNat
      w32Getint (i.bind fun i => if i > INT_MAX / 10 ∨ d > INT_MAX - 10 * i then none else some (10 * i + d)) s
    else (i, c :: s)

/-- The values of `len`, `W32_LEN_NONE` and so on. -/
inductive Length
  | none
  | hh
  | h
  | l
  | ll
  | bigL
  | j
  | z
  | t
  deriving DecidableEq, Repr

/-- The variables of a round: where `f` and `aq` are, and what was read of the specification. -/
structure Locals (Dbl LDbl : Type) where
  f : List ℕ
  aq : List (Arg Dbl LDbl)
  flags : List ℕ := []
  left : Bool := false
  w : ℕ := 0
  /-- `none` for `p < 0`. -/
  p : Option ℕ := none
  len : Length := .none
  conv : ℕ := 0
  deriving DecidableEq, Repr

/-- The characters of the flags: `-`, `+`, space, `#`, `0` and the apostrophe. -/
def flagChars : List ℕ := ['-'.toNat, '+'.toNat, ' '.toNat, '#'.toNat, '0'.toNat, 0x27]

/-- `sizeof flags - 1`. -/
def maxFlags : ℕ := 7

/-- The loop over the flags. -/
def flagsLoop (flags : List ℕ) (left : Bool) : List ℕ → List ℕ × Bool × List ℕ
  | [] => (flags, left, [])
  | c :: f =>
    if c ∈ flagChars then
      flagsLoop (if flags.length < maxFlags ∧ c ∉ flags then flags ++ [c] else flags)
        (if c = '-'.toNat then true else left) f
    else (flags, left, c :: f)

/-- Positional arguments are not supported. -/
def positional (f : List ℕ) : Bool :=
  let q := f.dropWhile isDigit
  q ≠ f ∧ q.headD 0 = '$'.toNat

/-- The flags. -/
def readFlags (x : Locals Dbl LDbl) : Locals Dbl LDbl :=
  let (flags, left, f) := flagsLoop [] false x.f
  { x with f, flags, left }

/-- The width. -/
def readWidth (x : Locals Dbl LDbl) : Except Exit (Locals Dbl LDbl) :=
  if x.f.headD 0 = '*'.toNat then do
    let (v, aq) ← vaArg Arg.asInt x.aq
    let x := { x with f := x.f.tail, aq }
    if v.toInt < 0 then
      if v.toInt = -2 ^ 31 then .error .overflow
      else
        let w := (-v.toInt).toNat
        if x.left then .ok { x with w }
        else .ok { x with
          w, left := true, flags := if x.flags.length < maxFlags then x.flags ++ ['-'.toNat] else x.flags }
    else .ok { x with w := v.toInt.toNat }
  else
    match w32Getint (some 0) x.f with
    | (none, _) => .error .overflow
    | (some w, f) => .ok { x with w, f }

/-- The precision. -/
def readPrecision (x : Locals Dbl LDbl) : Except Exit (Locals Dbl LDbl) :=
  if x.f.headD 0 = '.'.toNat ∧ x.f.tail.headD 0 = '*'.toNat then do
    let (v, aq) ← vaArg Arg.asInt x.aq
    .ok { x with f := x.f.tail.tail, aq, p := if v.toInt < 0 then none else some v.toInt.toNat }
  else if x.f.headD 0 = '.'.toNat then
    match w32Getint (some 0) x.f.tail with
    | (none, _) => .error .overflow
    | (some p, f) => .ok { x with p := some p, f }
  else .ok { x with p := none }

/-- The length modifier. -/
def readLength (f : List ℕ) : Length × List ℕ :=
  if f.headD 0 = 'h'.toNat then
    if f.tail.headD 0 = 'h'.toNat then (.hh, f.tail.tail) else (.h, f.tail)
  else if f.headD 0 = 'l'.toNat then
    if f.tail.headD 0 = 'l'.toNat then (.ll, f.tail.tail) else (.l, f.tail)
  else if f.headD 0 = 'L'.toNat then (.bigL, f.tail)
  else if f.headD 0 = 'q'.toNat then (.ll, f.tail)
  else if f.headD 0 = 'j'.toNat then (.j, f.tail)
  else if f.headD 0 = 'z'.toNat then (.z, f.tail)
  else if f.headD 0 = 't'.toNat then (.t, f.tail)
  else (.none, f)

/-- The length modifier and the conversion, which `l` may turn into another. -/
def readConv (x : Locals Dbl LDbl) : Locals Dbl LDbl :=
  let (len, f) := readLength x.f
  let conv := f.headD 0
  let conv := if conv = 'c'.toNat ∧ len = .l then 'C'.toNat else conv
  let conv := if conv = 's'.toNat ∧ len = .l then 'S'.toNat else conv
  { x with f := f.tail, len, conv }

/-- A conversion specification, from behind its `%` on. -/
def readSpec (x : Locals Dbl LDbl) : Except Exit (Locals Dbl LDbl) :=
  if positional x.f then .error .inval
  else do
    let x ← readWidth (readFlags x)
    let x ← readPrecision x
    .ok (readConv x)

end OrbisCompat.Wchar
