import Mathlib.Logic.Function.Basic
import OrbisCompat.Wchar.Spec

/-!
# `src/orbis_wchar32.c`: `vswprintf`

The loop over the format, the conversions, and the output they share.  Numbers are formatted by the `snprintf` of
libc, into a buffer on the stack or, when that is too small, into one from `malloc`.
-/

namespace OrbisCompat.Wchar

/-! ### Single characters and lengths -/

/-- `btowc`; its `W32_WEOF` has all bits set. -/
def btowc (c : BitVec 32) : ℕ :=
  let b := c.toNat % 256
  if b < 128 then b else 0xffffffff

/-- `mbtowc(&wc, s, n)`: what it returns and stores, or `none` when it fails with `EILSEQ`. -/
def mbtowc (s : List ℕ) (n : ℕ) : Option (ℕ × ℕ) :=
  if n = 0 then none
  else if s.headD 0 < 0x80 then some (if s.headD 0 ≠ 0 then 1 else 0, s.headD 0)
  else if Word32.sub (s.headD 0) SA > SB - SA then none
  else
    let c := bittab.getD (s.headD 0 - SA) 0
    let s₁ := s.tail
    if n < 4 ∧ Word32.shl c (6 * n - 6) &&& 2 ^ 31 ≠ 0 then none
    else if OOB c (s₁.headD 0) ≠ 0 then none
    else
      let c := Word32.shl c 6 ||| Word32.sub (s₁.headD 0) 0x80
      let s₂ := s₁.tail
      if c &&& 2 ^ 31 = 0 then some (2, c)
      else if Word32.sub (s₂.headD 0) 0x80 ≥ 0x40 then none
      else
        let c := Word32.shl c 6 ||| Word32.sub (s₂.headD 0) 0x80
        let s₃ := s₂.tail
        if c &&& 2 ^ 31 = 0 then some (3, c)
        else if Word32.sub (s₃.headD 0) 0x80 ≥ 0x40 then none
        else some (4, Word32.shl c 6 ||| Word32.sub (s₃.headD 0) 0x80)

/-- `W32_MB_LEN_MAX`. -/
def W32_MB_LEN_MAX : ℕ := 4

/-- `wmemchr(s, c, n)`, as the distance from `s`. -/
def wmemchr (c : ℕ) : ℕ → List ℕ → Option ℕ
  | 0, _ => none
  | n + 1, s => if s.headD 0 = c then some 0 else (wmemchr c n s.tail).map (· + 1)

/-- `wcsnlen`. -/
def wcsnlen (s : List ℕ) (n : ℕ) : ℕ := (wmemchr 0 n s).getD n

/-! ### The output -/

/-- `struct w32_out`. -/
structure W32Out where
  s : ℕ → ℕ
  cap : ℕ
  len : ℕ

/-- `w32_put`. -/
def w32Put (o : W32Out) (c : ℕ) : W32Out :=
  { o with s := if o.len < o.cap then Function.update o.s o.len c else o.s, len := o.len + 1 }

/-- `w32_pad`. -/
def w32Pad (o : W32Out) : ℕ → W32Out
  | 0 => o
  | k + 1 => w32Pad (w32Put o ' '.toNat) k

/-- The loop of `%S` over its `l` characters. -/
def putWide (o : W32Out) : ℕ → List ℕ → W32Out
  | 0, _ => o
  | l + 1, a => putWide (w32Put o (a.headD 0)) l a.tail

/-- The first loop of `%s`, which counts: `l`, whether the last `i` was negative, and `bs`. -/
def countMultibyte (l : ℕ) : ℕ → List ℕ → ℕ × Bool × List ℕ
  | 0, bs => (l, false, bs)
  | k + 1, bs =>
    match mbtowc bs W32_MB_LEN_MAX with
    | none => (l, true, bs)
    | some (i, _) => if i > 0 then countMultibyte (l + 1) k (bs.drop i) else (l, false, bs)

/-- The second loop of `%s`, over characters that the first has seen. -/
def putMultibyte (o : W32Out) : ℕ → List ℕ → W32Out
  | 0, _ => o
  | l + 1, a =>
    match mbtowc a W32_MB_LEN_MAX with
    | none => o
    | some (i, wc) => putMultibyte (w32Put o wc) l (a.drop i)

/-! ### The conversions -/

/-- What `%n` stores: how many bytes of `o.len`, and where. -/
structure Store where
  ptr : BitVec 64
  size : ℕ
  value : ℕ
  deriving DecidableEq, Repr

/-- The functions of libc that `vswprintf` calls. -/
structure Libc (Dbl LDbl : Type) where
  /-- What `snprintf` formats, or `none` when it returns a negative number. -/
  snprintf : List ℕ → List (Arg Dbl LDbl) → Option (List ℕ)
  /-- Its length is an `int`. -/
  snprintf_le : ∀ cf args out, snprintf cf args = some out → out.length ≤ INT_MAX
  /-- Whether the `i`-th call of `malloc` gets that many bytes. -/
  malloc : ℕ → ℕ → Bool

/-- The labels of `switch (conv)`. -/
inductive Label
  | count
  | char
  | wideString
  | string
  | signed
  | unsigned
  | pointer
  | floating
  | default
  deriving DecidableEq, Repr

/-- `switch (conv)`. -/
def Label.of (conv : ℕ) : Label :=
  if conv = 'n'.toNat then count
  else if conv = 'c'.toNat ∨ conv = 'C'.toNat then char
  else if conv = 'S'.toNat then wideString
  else if conv = 's'.toNat then string
  else if conv = 'd'.toNat ∨ conv = 'i'.toNat then signed
  else if conv = 'o'.toNat ∨ conv = 'u'.toNat ∨ conv = 'x'.toNat ∨ conv = 'X'.toNat then unsigned
  else if conv = 'p'.toNat then pointer
  else if conv = 'a'.toNat ∨ conv = 'A'.toNat ∨ conv = 'e'.toNat ∨ conv = 'E'.toNat ∨ conv = 'f'.toNat ∨
      conv = 'F'.toNat ∨ conv = 'g'.toNat ∨ conv = 'G'.toNat then floating
  else default

/-- The size of what `%n` stores. -/
def countSize : Length → Option ℕ
  | .none => some 4
  | .hh => some 1
  | .h => some 2
  | .l | .ll | .j | .z | .t => some 8
  | .bigL => none

variable {Dbl LDbl : Type}

/-- The `v` of `%d` and `%i`. -/
def signedArg (len : Length) (aq : List (Arg Dbl LDbl)) : Except Exit (BitVec 64 × List (Arg Dbl LDbl)) :=
  match len with
  | .hh => do
    let (v, aq) ← vaArg Arg.asInt aq
    .ok ((v.setWidth 8).signExtend 64, aq)
  | .h => do
    let (v, aq) ← vaArg Arg.asInt aq
    .ok ((v.setWidth 16).signExtend 64, aq)
  | .none => do
    let (v, aq) ← vaArg Arg.asInt aq
    .ok (v.signExtend 64, aq)
  | .l | .ll | .j | .z | .t => vaArg Arg.asLong aq
  | .bigL => .error .inval

/-- The `v` of `%o`, `%u`, `%x` and `%X`. -/
def unsignedArg (len : Length) (aq : List (Arg Dbl LDbl)) : Except Exit (BitVec 64 × List (Arg Dbl LDbl)) :=
  match len with
  | .hh => do
    let (v, aq) ← vaArg Arg.asInt aq
    .ok ((v.setWidth 8).setWidth 64, aq)
  | .h => do
    let (v, aq) ← vaArg Arg.asInt aq
    .ok ((v.setWidth 16).setWidth 64, aq)
  | .none => do
    let (v, aq) ← vaArg Arg.asInt aq
    .ok (v.setWidth 64, aq)
  | .l | .ll | .j | .z | .t => vaArg Arg.asLong aq
  | .bigL => .error .inval

/-- The text in `cf`: `%`, the flags, what is between, and the conversion. -/
def cfText (x : Locals Dbl LDbl) (mid : List Char) : List ℕ :=
  '%'.toNat :: (x.flags ++ mid.map Char.toNat ++ [x.conv])

/-- `w` and `p` as arguments. -/
def widthArg (w : ℕ) : Arg Dbl LDbl := .int (BitVec.ofNat 32 w)

def precisionArg (p : Option ℕ) : Arg Dbl LDbl := .int (p.elim (BitVec.ofInt 32 (-1)) (BitVec.ofNat 32))

/-- `sizeof nb`. -/
def nbSize : ℕ := 256

/-- The text that `snprintf` leaves in `out`, where the `i`-th call of `malloc` is the next. -/
def formatNumber (libc : Libc Dbl LDbl) (cf : List ℕ) (args : List (Arg Dbl LDbl)) (i : ℕ) :
    Except Exit (List ℕ × ℕ) :=
  match libc.snprintf cf args with
  | none => .error (.fail none)
  | some out =>
    if out.length ≥ nbSize then
      if libc.malloc i (out.length + 1) then .ok (out, i + 1) else .error (.fail none)
    else .ok (out, i)

/-- The variables of the loop, with the calls of `malloc` and the stores of `%n` so far. -/
structure Printf (Dbl LDbl : Type) where
  o : W32Out
  f : List ℕ
  aq : List (Arg Dbl LDbl)
  mallocs : ℕ := 0
  stores : List Store := []

/-- What follows the `switch`. -/
def putNumber (libc : Libc Dbl LDbl) (st : Printf Dbl LDbl) (x : Locals Dbl LDbl) (aq : List (Arg Dbl LDbl))
    (mid : List Char) (args : List (Arg Dbl LDbl)) : Except Exit (Printf Dbl LDbl) := do
  let (out, mallocs) ← formatNumber libc (cfText x mid) args st.mallocs
  .ok { st with o := out.foldl w32Put st.o, f := x.f, aq, mallocs }

/-- The strings that stand for a null pointer. -/
def nullText : List ℕ := ['('.toNat, 'n'.toNat, 'u'.toNat, 'l'.toNat, 'l'.toNat, ')'.toNat]

/-- The `switch` over the conversion. -/
def convert (libc : Libc Dbl LDbl) (st : Printf Dbl LDbl) (x : Locals Dbl LDbl) : Except Exit (Printf Dbl LDbl) :=
  match Label.of x.conv with
  | .count => do
    let (ptr, aq) ← vaArg Arg.asPtr x.aq
    match countSize x.len with
    | none => .error .inval
    | some size =>
      .ok { st with f := x.f, aq, stores := st.stores ++ [⟨ptr, size, st.o.len % 2 ^ (8 * size)⟩] }
  | .char => do
    let (v, aq) ← vaArg Arg.asInt x.aq
    let c := if x.conv = 'C'.toNat then v.toNat else btowc v
    let w := if x.w < 1 then 1 else x.w
    let o := if x.left then st.o else w32Pad st.o (w - 1)
    let o := w32Put o c
    let o := if x.left then w32Pad o (w - 1) else o
    .ok { st with o, f := x.f, aq }
  | .wideString => do
    let (a, aq) ← vaArg Arg.asWstr x.aq
    let a := a.getD nullText
    let l := wcsnlen a (x.p.getD INT_MAX)
    if x.p = none ∧ (a.drop l).headD 0 ≠ 0 then .error .overflow
    else
      let o := if x.w > l ∧ ¬x.left then w32Pad st.o (x.w - l) else st.o
      let o := putWide o l a
      let o := if x.w > l ∧ x.left then w32Pad o (x.w - l) else o
      .ok { st with o, f := x.f, aq }
  | .string => do
    let (a, aq) ← vaArg Arg.asStr x.aq
    let a := a.getD nullText
    let (l, negative, bs) := countMultibyte 0 (x.p.getD INT_MAX) a
    if negative then .error (.fail (some .EILSEQ))
    else if x.p = none ∧ bs.headD 0 ≠ 0 then .error .overflow
    else
      let o := if x.w > l ∧ ¬x.left then w32Pad st.o (x.w - l) else st.o
      let o := putMultibyte o l a
      let o := if x.w > l ∧ x.left then w32Pad o (x.w - l) else o
      .ok { st with o, f := x.f, aq }
  | .signed => do
    let (v, aq) ← signedArg x.len x.aq
    putNumber libc st x aq ['*', '.', '*', 'j'] [widthArg x.w, precisionArg x.p, .long v]
  | .unsigned => do
    let (v, aq) ← unsignedArg x.len x.aq
    putNumber libc st x aq ['*', '.', '*', 'j'] [widthArg x.w, precisionArg x.p, .long v]
  | .pointer => do
    let (v, aq) ← vaArg Arg.asPtr x.aq
    putNumber libc st x aq ['*'] [widthArg x.w, .ptr v]
  | .floating =>
    if x.len = .bigL then do
      let (v, aq) ← vaArg Arg.asLongDouble x.aq
      putNumber libc st x aq ['*', '.', '*', 'L'] [widthArg x.w, precisionArg x.p, .longDouble v]
    else if x.len = .none ∨ x.len = .l then do
      let (v, aq) ← vaArg Arg.asDouble x.aq
      putNumber libc st x aq ['*', '.', '*'] [widthArg x.w, precisionArg x.p, .double v]
    else .error .inval
  | .default => .error .inval

/-! ### The loop -/

/-- A round of the loop, at a format that has not ended. -/
def round (libc : Libc Dbl LDbl) (st : Printf Dbl LDbl) : Except Exit (Printf Dbl LDbl) :=
  if st.o.len > INT_MAX then .error .overflow
  else if st.f.headD 0 ≠ '%'.toNat then .ok { st with o := w32Put st.o (st.f.headD 0), f := st.f.tail }
  else if st.f.tail.headD 0 = '%'.toNat then
    .ok { st with o := w32Put st.o '%'.toNat, f := st.f.tail.tail }
  else do
    let x ← readSpec { f := st.f.tail, aq := st.aq }
    convert libc st x

/-- `while (*f)`, with the exit it is left by.  Every round shortens the format, so its length is fuel enough. -/
def loop (libc : Libc Dbl LDbl) : ℕ → Printf Dbl LDbl → Printf Dbl LDbl × Option Exit
  | 0, st => (st, none)
  | fuel + 1, st =>
    if st.f.headD 0 = 0 then (st, none)
    else
      match round libc st with
      | .error e => (st, some e)
      | .ok st => loop libc fuel st

/-- What the exits put into `errno`. -/
def Exit.errno : Exit → Option Errno
  | inval => some .EINVAL
  | overflow => some .EOVERFLOW
  | fail errno => errno
  | undefined => none

/-- What `vswprintf` leaves behind. -/
structure Formatted where
  s : ℕ → ℕ
  ret : ℤ
  errno : Option Errno := none
  stores : List Store := []

/-- `vswprintf`; `none` when what it does is undefined. -/
def vswprintf (libc : Libc Dbl LDbl) (s : ℕ → ℕ) (n : ℕ) (fmt : List ℕ) (ap : List (Arg Dbl LDbl)) :
    Option Formatted :=
  if n = 0 then some { s, ret := -1 }
  else
    let (st, exit) := loop libc fmt.length { o := { s, cap := n - 1, len := 0 }, f := fmt, aq := ap }
    let exit := if exit = none ∧ st.o.len > INT_MAX then some .overflow else exit
    let s := Function.update st.o.s (if st.o.len < st.o.cap then st.o.len else st.o.cap) 0
    match exit with
    | none => some { s, ret := if st.o.len ≥ n then -1 else st.o.len, stores := st.stores }
    | some .undefined => none
    | some e => some { s, ret := -1, errno := e.errno, stores := st.stores }

end OrbisCompat.Wchar
