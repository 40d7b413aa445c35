import Mathlib.Data.Finset.Dedup
import Mathlib.Data.Finset.Insert
import OrbisCompat.Lib.Sink
import OrbisCompat.Wchar.Printf

/-!
# The formats of the narrow `printf`

A format is a list of pieces: a character, `%%`, or a conversion specification with its flags, width, precision,
length modifier and conversion.  What the narrow `printf` makes of a number is one function of these and of the
value (`Printer`); a character or a string it only pads.

`Piece.chars` spells a piece, and `Printer.format` gives the text of a whole format.
-/

namespace OrbisCompat.Wchar.Narrow

open Sink

/-- The flags. -/
inductive Flag
  | minus
  | plus
  | space
  | alternative
  | zero
  | apostrophe
  deriving DecidableEq, Repr

def Flag.char : Flag → ℕ
  | minus => '-'.toNat
  | plus => '+'.toNat
  | space => ' '.toNat
  | alternative => '#'.toNat
  | zero => '0'.toNat
  | apostrophe => 0x27

/-- The number that some decimal digits spell behind the digits of `i`. -/
def decimalFrom (i : ℕ) (ds : List (Fin 10)) : ℕ := ds.foldl (fun i d => 10 * i + d) i

def digitChars (ds : List (Fin 10)) : List ℕ := ds.map fun (d : Fin 10) => '0'.toNat + (d : ℕ)

/-- A width.  Its first digit is not `0`, which is a flag, and it is an `int`. -/
inductive Width
  | absent
  | literal (d : Fin 10) (ds : List (Fin 10)) (hd : d ≠ 0) (hmax : decimalFrom d ds ≤ INT_MAX)
  | star

def Width.chars : Width → List ℕ
  | absent => []
  | literal d ds _ _ => digitChars (d :: ds)
  | star => ['*'.toNat]

/-- A precision; `.` alone is a precision of `0`. -/
inductive Precision
  | absent
  | literal (ds : List (Fin 10)) (hmax : decimalFrom 0 ds ≤ INT_MAX)
  | star

def Precision.chars : Precision → List ℕ
  | absent => []
  | literal ds _ => '.'.toNat :: digitChars ds
  | star => ['.'.toNat, '*'.toNat]

/-- A length modifier. -/
inductive Modifier
  | none
  | hh
  | h
  | l
  | ll
  | q
  | bigL
  | j
  | z
  | t
  deriving DecidableEq, Repr

def Modifier.chars : Modifier → List ℕ
  | none => []
  | hh => ['h'.toNat, 'h'.toNat]
  | h => ['h'.toNat]
  | l => ['l'.toNat]
  | ll => ['l'.toNat, 'l'.toNat]
  | q => ['q'.toNat]
  | bigL => ['L'.toNat]
  | j => ['j'.toNat]
  | z => ['z'.toNat]
  | t => ['t'.toNat]

/-- The conversions of integers. -/
inductive IntConv
  | d
  | i
  | o
  | u
  | x
  | X
  deriving DecidableEq, Repr

def IntConv.char : IntConv → ℕ
  | d => 'd'.toNat
  | i => 'i'.toNat
  | o => 'o'.toNat
  | u => 'u'.toNat
  | x => 'x'.toNat
  | X => 'X'.toNat

def IntConv.isSigned : IntConv → Bool
  | d | i => true
  | o | u | x | X => false

/-- The conversions of floating numbers. -/
inductive FloatConv
  | a
  | A
  | e
  | E
  | f
  | F
  | g
  | G
  deriving DecidableEq, Repr

def FloatConv.char : FloatConv → ℕ
  | a => 'a'.toNat
  | A => 'A'.toNat
  | e => 'e'.toNat
  | E => 'E'.toNat
  | f => 'f'.toNat
  | F => 'F'.toNat
  | g => 'g'.toNat
  | G => 'G'.toNat

/-- The conversions. -/
inductive Conv
  | c
  | s
  | int (k : IntConv)
  | float (k : FloatConv)
  deriving DecidableEq, Repr

def Conv.char : Conv → ℕ
  | c => 'c'.toNat
  | s => 's'.toNat
  | int k => k.char
  | float k => k.char

/-- The length modifiers that a conversion may have. -/
def Modifier.Allowed : Modifier → Conv → Prop
  | none, _ => True
  | l, _ => True
  | bigL, .float _ => True
  | bigL, _ => False
  | _, .int _ => True
  | _, _ => False

/-- A conversion specification. -/
structure Directive where
  flags : List Flag
  width : Width
  precision : Precision
  len : Modifier
  conv : Conv
  allowed : len.Allowed conv

/-- What is behind the `%`. -/
def Directive.chars (d : Directive) : List ℕ :=
  d.flags.map Flag.char ++ (d.width.chars ++ (d.precision.chars ++ (d.len.chars ++ [d.conv.char])))

/-- A piece of a format. -/
inductive Piece
  | literal (c : ℕ) (hascii : 0 < c ∧ c < 128) (hc : c ≠ '%'.toNat)
  | percent
  | directive (d : Directive)

def Piece.chars : Piece → List ℕ
  | literal c _ _ => [c]
  | percent => ['%'.toNat, '%'.toNat]
  | directive d => '%'.toNat :: d.chars

/-- A format. -/
abbrev Format := List Piece

def Format.chars (fmt : Format) : List ℕ := fmt.flatMap Piece.chars

/-! ### The text of a format -/

variable {Dbl LDbl : Type}

/-- How a libc formats numbers: the text of a value for flags, a width, a precision and a conversion.  It has at
least the width. -/
structure Printer (Dbl LDbl : Type) where
  integer : Finset Flag → ℕ → Option ℕ → IntConv → ℤ → List ℕ
  double : Finset Flag → ℕ → Option ℕ → FloatConv → Dbl → List ℕ
  longDouble : Finset Flag → ℕ → Option ℕ → FloatConv → LDbl → List ℕ
  le_integer : ∀ flags w p k v, w ≤ (integer flags w p k v).length
  le_double : ∀ flags w p k v, w ≤ (double flags w p k v).length
  le_longDouble : ∀ flags w p k v, w ≤ (longDouble flags w p k v).length

/-- The width, and whether it comes with a `-` flag, as a negative one does. -/
def Width.read : Width → List (Arg Dbl LDbl) → Option ((ℕ × Bool) × List (Arg Dbl LDbl))
  | absent, aq => some ((0, false), aq)
  | literal d ds _ _, aq => some ((decimalFrom d ds, false), aq)
  | star, .int v :: aq => some ((v.toInt.natAbs, decide (v.toInt < 0)), aq)
  | star, _ => none

/-- The precision; a negative one is none. -/
def Precision.read : Precision → List (Arg Dbl LDbl) → Option (Option ℕ × List (Arg Dbl LDbl))
  | absent, aq => some (none, aq)
  | literal ds _, aq => some (some (decimalFrom 0 ds), aq)
  | star, .int v :: aq => some (if v.toInt < 0 then none else some v.toInt.toNat, aq)
  | star, _ => none

/-- The value of an integer of `bits` bits that is passed as `v`. -/
def narrowed (isSigned : Bool) (bits : ℕ) (v : BitVec 32) : ℤ :=
  if isSigned then v.toInt.bmod (2 ^ bits) else v.toNat % 2 ^ bits

/-- The value of an integer argument, by the length modifier. -/
def intValue (isSigned : Bool) : Modifier → Arg Dbl LDbl → Option ℤ
  | .hh, .int v => some (narrowed isSigned 8 v)
  | .h, .int v => some (narrowed isSigned 16 v)
  | .none, .int v => some (if isSigned then v.toInt else v.toNat)
  | .l, .long v | .ll, .long v | .q, .long v | .j, .long v | .z, .long v | .t, .long v =>
    some (if isSigned then v.toInt else v.toNat)
  | _, _ => none

/-- The characters of a string argument, which are ASCII. -/
def stringValue (len : Modifier) (a : Arg Dbl LDbl) : Option (List ℕ) :=
  let ascii (s : List ℕ) : Option (List ℕ) := if ∀ c ∈ s, 0 < c ∧ c < 128 then some s else none
  match len, a with
  | .none, .str (some s) => ascii s
  | .l, .wstr (some s) => ascii s
  | _, _ => none

/-- The character of an argument, which is ASCII. -/
def charValue : Arg Dbl LDbl → Option ℕ
  | .int v => if v.toNat < 128 then some v.toNat else none
  | _ => none

/-- The text of a conversion; `none` when the argument has another type or is not ASCII. -/
def Printer.convert (N : Printer Dbl LDbl) (flags : Finset Flag) (w : ℕ) (p : Option ℕ) (len : Modifier) (conv : Conv)
    (a : Arg Dbl LDbl) : Option (List ℕ) :=
  let left := decide (Flag.minus ∈ flags)
  match conv with
  | .c => (charValue a).map fun c => justify ' '.toNat left w [c]
  | .s => (stringValue len a).map fun s => justify ' '.toNat left w (s.take (p.getD s.length))
  | .int k => (intValue k.isSigned len a).map fun v => N.integer flags w p k v
  | .float k =>
    match len, a with
    | .bigL, .longDouble v => some (N.longDouble flags w p k v)
    | .none, .double v => some (N.double flags w p k v)
    | .l, .double v => some (N.double flags w p k v)
    | _, _ => none

/-- The flags, with the one that a negative width brings. -/
def Directive.allFlags (d : Directive) (negative : Bool) : Finset Flag :=
  if negative then insert .minus d.flags.toFinset else d.flags.toFinset

/-- The text of a conversion specification, and the arguments it leaves. -/
def Printer.directive (N : Printer Dbl LDbl) (d : Directive) (aq : List (Arg Dbl LDbl)) :
    Option (List ℕ × List (Arg Dbl LDbl)) := do
  let ((w, negative), aq) ← d.width.read aq
  let (p, aq) ← d.precision.read aq
  let a ← aq.head?
  let text ← N.convert (d.allFlags negative) w p d.len d.conv a
  some (text, aq.tail)

/-- The text of a format. -/
def Printer.format (N : Printer Dbl LDbl) : Format → List (Arg Dbl LDbl) → Option (List ℕ)
  | [], _ => some []
  | .literal c _ _ :: fmt, aq => (N.format fmt aq).map (c :: ·)
  | .percent :: fmt, aq => (N.format fmt aq).map ('%'.toNat :: ·)
  | .directive d :: fmt, aq => do
    let (text, aq) ← N.directive d aq
    let rest ← N.format fmt aq
    some (text ++ rest)

/-- The `snprintf` of a libc formats a conversion specification as `N` does. -/
def Formats (libc : Libc Dbl LDbl) (N : Printer Dbl LDbl) : Prop :=
  ∀ d aq text rest, N.directive d aq = some (text, rest) → text.length ≤ INT_MAX →
    libc.snprintf (Piece.chars (.directive d)) aq = some text

end OrbisCompat.Wchar.Narrow
