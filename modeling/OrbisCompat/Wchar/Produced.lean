import OrbisCompat.Lib.Sink
import OrbisCompat.Wchar.Printf

/-!
# The characters that a format produces

What `vswprintf` is for, without the buffer: the literals and the conversions of a format produce a sequence of
wide characters, item by item, up to its end or to an item that fails (`Produces`).  The buffer should hold as
much of the sequence as there is room for, and the result should tell whether that was all of it (`Contract`).
-/

namespace OrbisCompat.Wchar

open Sink

variable {Dbl LDbl : Type}

/-- At most `k` characters of a multibyte string, and what is behind them; `none` when one does not decode. -/
def decode : ℕ → List ℕ → Option (List ℕ × List ℕ)
  | 0, a => some ([], a)
  | k + 1, a =>
    match mbtowc a W32_MB_LEN_MAX with
    | none => none
    | some (i, wc) => if i > 0 then (decode k (a.drop i)).map fun r => (wc :: r.1, r.2) else some ([], a)

/-- A wide string, up to its terminator. -/
def wideText (a : List ℕ) : List ℕ := a.takeWhile (· ≠ 0)

/-- What a number produces. -/
def numberText (libc : Libc Dbl LDbl) (x : Locals Dbl LDbl) (i : ℕ) (aq : List (Arg Dbl LDbl)) (mid : List Char)
    (args : List (Arg Dbl LDbl)) : Except Exit (List ℕ × List (Arg Dbl LDbl) × ℕ) := do
  let (out, i) ← formatNumber libc (cfText x mid) args i
  .ok (out, aq, i)

/-- What a conversion produces, with the arguments it leaves and the calls of `malloc` so far. -/
def text (libc : Libc Dbl LDbl) (x : Locals Dbl LDbl) (i : ℕ) : Except Exit (List ℕ × List (Arg Dbl LDbl) × ℕ) :=
  match Label.of x.conv with
  | .count => do
    let (_, aq) ← vaArg Arg.asPtr x.aq
    if x.len = .bigL then .error .inval else .ok ([], aq, i)
  | .char => do
    let (v, aq) ← vaArg Arg.asInt x.aq
    .ok (justify ' '.toNat x.left x.w [if x.conv = 'C'.toNat then v.toNat else btowc v], aq, i)
  | .wideString => do
    let (a, aq) ← vaArg Arg.asWstr x.aq
    let cs := wideText (a.getD nullText)
    if x.p = none ∧ cs.length > INT_MAX then .error .overflow
    else .ok (justify ' '.toNat x.left x.w (cs.take (x.p.getD INT_MAX)), aq, i)
  | .string => do
    let (a, aq) ← vaArg Arg.asStr x.aq
    match decode (x.p.getD INT_MAX) (a.getD nullText) with
    | none => .error (.fail (some .EILSEQ))
    | some (cs, bs) =>
      if x.p = none ∧ bs.headD 0 ≠ 0 then .error .overflow
      else .ok (justify ' '.toNat x.left x.w cs, aq, i)
  | .signed => do
    let (v, aq) ← signedArg x.len x.aq
    numberText libc x i aq ['*', '.', '*', 'j'] [widthArg x.w, precisionArg x.p, .long v]
  | .unsigned => do
    let (v, aq) ← unsignedArg x.len x.aq
    numberText libc x i aq ['*', '.', '*', 'j'] [widthArg x.w, precisionArg x.p, .long v]
  | .pointer => do
    let (v, aq) ← vaArg Arg.asPtr x.aq
    numberText libc x i aq ['*'] [widthArg x.w, .ptr v]
  | .floating =>
    if x.len = .bigL then do
      let (v, aq) ← vaArg Arg.asLongDouble x.aq
      numberText libc x i aq ['*', '.', '*', 'L'] [widthArg x.w, precisionArg x.p, .longDouble v]
    else if x.len = .none ∨ x.len = .l then do
      let (v, aq) ← vaArg Arg.asDouble x.aq
      numberText libc x i aq ['*', '.', '*'] [widthArg x.w, precisionArg x.p, .double v]
    else .error .inval
  | .default => .error .inval

/-- A place between two items: the format and the arguments from there on, and the calls of `malloc` so far. -/
structure Place (Dbl LDbl : Type) where
  f : List ℕ
  aq : List (Arg Dbl LDbl)
  mallocs : ℕ := 0

/-- What the next item produces, and the place behind it. -/
def item (libc : Libc Dbl LDbl) (at' : Place Dbl LDbl) : Except Exit (List ℕ × Place Dbl LDbl) :=
  if at'.f.headD 0 ≠ '%'.toNat then .ok ([at'.f.headD 0], { at' with f := at'.f.tail })
  else if at'.f.tail.headD 0 = '%'.toNat then .ok (['%'.toNat], { at' with f := at'.f.tail.tail })
  else do
    let x ← readSpec { f := at'.f.tail, aq := at'.aq }
    let (cs, aq, mallocs) ← text libc x at'.mallocs
    .ok (cs, { f := x.f, aq, mallocs })

/-- With `k` characters produced before, the items from a place on produce `cs` and then end, or leave by an
exit.  They also leave, by `overflow`, before an item at which `stop` holds of what has been produced. -/
inductive Produces (libc : Libc Dbl LDbl) (stop : ℕ → Prop) :
    ℕ → Place Dbl LDbl → List ℕ → Option Exit → Prop
  | ends {k at'} (h : at'.f.headD 0 = 0) : Produces libc stop k at' [] none
  | stops {k at'} (h : at'.f.headD 0 ≠ 0) (hstop : stop k) : Produces libc stop k at' [] (some .overflow)
  | leaves {k at' e} (h : at'.f.headD 0 ≠ 0) (hstop : ¬stop k) (hitem : item libc at' = .error e) :
      Produces libc stop k at' [] (some e)
  | item {k at' cs next ds e} (h : at'.f.headD 0 ≠ 0) (hstop : ¬stop k) (hitem : item libc at' = .ok (cs, next))
      (hnext : Produces libc stop (k + cs.length) next ds e) : Produces libc stop k at' (cs ++ ds) e

/-- The sequence of a format: it is given up before an item at which it is longer than `INT_MAX` already. -/
def Sequence (libc : Libc Dbl LDbl) (fmt : List ℕ) (ap : List (Arg Dbl LDbl)) : List ℕ → Option Exit → Prop :=
  Produces libc (INT_MAX < ·) 0 { f := fmt, aq := ap }

/-- The sequence of a format that is never given up. -/
def FullSequence (libc : Libc Dbl LDbl) (fmt : List ℕ) (ap : List (Arg Dbl LDbl)) :
    List ℕ → Option Exit → Prop :=
  Produces libc (fun _ => False) 0 { f := fmt, aq := ap }

/-- Every `va_arg` that is reached finds an argument of its type. -/
def Matches (libc : Libc Dbl LDbl) (fmt : List ℕ) (ap : List (Arg Dbl LDbl)) : Prop :=
  ∀ cs, ¬Sequence libc fmt ap cs (some .undefined)

/-! ### Argument lists by their types -/

/-- The types that `va_arg` asks for. -/
inductive ArgType
  | int
  | long
  | double
  | longDouble
  | str
  | wstr
  | ptr
  deriving DecidableEq, Repr

def Arg.type : Arg Dbl LDbl → ArgType
  | int _ => .int
  | long _ => .long
  | double _ => .double
  | longDouble _ => .longDouble
  | str _ => .str
  | wstr _ => .wstr
  | ptr _ => .ptr

/-- The type of an integer, by its length modifier. -/
def integerTypes : Length → List ArgType
  | .none | .hh | .h => [.int]
  | .l | .ll | .j | .z | .t => [.long]
  | .bigL => []

/-- What a conversion takes. -/
def convTypes (len : Length) : Label → List ArgType
  | .count | .pointer => [.ptr]
  | .char => [.int]
  | .wideString => [.wstr]
  | .string => [.str]
  | .signed | .unsigned => integerTypes len
  | .floating => if len = .bigL then [.longDouble] else if len = .none ∨ len = .l then [.double] else []
  | .default => []

/-- What a width takes, and the format behind it. -/
def widthTypes (f : List ℕ) : List ArgType × List ℕ :=
  if f.headD 0 = '*'.toNat then ([.int], f.tail) else ([], (w32Getint (some 0) f).2)

/-- What a precision takes, and the format behind it. -/
def precisionTypes (f : List ℕ) : List ArgType × List ℕ :=
  if f.headD 0 = '.'.toNat ∧ f.tail.headD 0 = '*'.toNat then ([.int], f.tail.tail)
  else if f.headD 0 = '.'.toNat then ([], (w32Getint (some 0) f.tail).2)
  else ([], f)

/-- What a conversion specification takes, and the format behind it. -/
def specTypes (f : List ℕ) : List ArgType × List ℕ :=
  let width := widthTypes (flagsLoop [] false f).2.2
  let precision := precisionTypes width.2
  let x : Locals Unit Unit := readConv { f := precision.2, aq := [] }
  (width.1 ++ precision.1 ++ convTypes x.len (Label.of x.conv), x.f)

/-- The format takes arguments of the types `ts`. -/
inductive Takes : List ℕ → List ArgType → Prop
  | ends {f} (h : f.headD 0 = 0) : Takes f []
  | literal {f ts} (h : f.headD 0 ≠ '%'.toNat) (hnext : Takes f.tail ts) : Takes f ts
  | percent {f ts} (h : f.headD 0 = '%'.toNat) (h' : f.tail.headD 0 = '%'.toNat) (hnext : Takes f.tail.tail ts) :
      Takes f ts
  | spec {f ts} (h : f.headD 0 = '%'.toNat) (h' : f.tail.headD 0 ≠ '%'.toNat)
      (hnext : Takes (specTypes f.tail).2 ts) : Takes f ((specTypes f.tail).1 ++ ts)

/-! ### The contract -/

/-- What a call with the buffer `s` of `n` elements owes a sequence `cs`. -/
structure Contract (cs : List ℕ) (complete : Prop) (s : ℕ → ℕ) (n : ℕ) (out : Formatted) : Prop where
  nothing : n = 0 → out.s = s ∧ out.ret = -1
  frame : ∀ i, n ≤ i → out.s i = s i
  stored : ∀ i (h : i < cs.length), i < n - 1 → out.s i = cs[i]
  terminated : 0 < n → out.s (min cs.length (n - 1)) = 0
  success : complete → cs.length ≤ INT_MAX → cs.length < n → out.ret = cs.length
  failure : ¬(complete ∧ cs.length ≤ INT_MAX ∧ cs.length < n) → out.ret = -1

end OrbisCompat.Wchar
