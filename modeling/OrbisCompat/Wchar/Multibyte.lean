import OrbisCompat.Lib.Word32

/-!
# `src/orbis_wchar32.c`: the multibyte conversions

`mbstowcs` and `wcstombs` with the functions they are made of, for a null conversion state, as both call them.
The decoder is a table machine: an entry of `bittab` has in its top six bits an offset that bound-checks the next
byte, and below it a mark for each byte that is still to come.

A NUL-terminated string is the list of its elements before the terminator, so `*s` is `0` at the end of the list.
Bytes and wide characters are naturals, a `wchar_t` by the bits of its `unsigned`.  What a function stores through
its output pointer is the list of what it stores from there on, one element after the other.
-/

namespace OrbisCompat.Wchar

/-- The values of `errno` that the file sets. -/
inductive Errno
  | EILSEQ
  | EINVAL
  | EOVERFLOW
  deriving DecidableEq, Repr

/-! ### The state tables -/

/-- `OOB(c, b)`. -/
def OOB (c b : ℕ) : ℕ :=
  ((Word32.sub (b >>> 3) 0x10) ||| (b >>> 3 + Word32.sar c 26) % 2 ^ 32) &&& Word32.not 7

/-- `R(a, b)`. -/
def R (a b : ℕ) : ℕ := Word32.shl (if a = 0x80 then Word32.sub 0x40 b else Word32.sub 0 a) 23

/-- `SA`. -/
def SA : ℕ := 0xc2

/-- `SB`. -/
def SB : ℕ := 0xf4

/-- `C(x)`. -/
def C (x : ℕ) : ℕ := if x < 2 then 2 ^ 32 - 1 else R 0x80 0xc0 ||| x

/-- `D(x)`. -/
def D (x : ℕ) : ℕ := C (x + 16)

/-- `E(x)`. -/
def E (x : ℕ) : ℕ :=
  (if x = 0 then R 0xa0 0xc0 else if x = 0xd then R 0x80 0xa0 else R 0x80 0xc0) |||
    R 0x80 0xc0 >>> 6 ||| x

/-- `F(x)`. -/
def F (x : ℕ) : ℕ :=
  (if x ≥ 5 then 0 else if x = 0 then R 0x90 0xc0 else if x = 4 then R 0x80 0x90 else R 0x80 0xc0) |||
    R 0x80 0xc0 >>> 6 ||| R 0x80 0xc0 >>> 12 ||| x

/-- `bittab`. -/
def bittab : List ℕ :=
  [                C 0x2, C 0x3, C 0x4, C 0x5, C 0x6, C 0x7,
    C 0x8, C 0x9, C 0xa, C 0xb, C 0xc, C 0xd, C 0xe, C 0xf,
    D 0x0, D 0x1, D 0x2, D 0x3, D 0x4, D 0x5, D 0x6, D 0x7,
    D 0x8, D 0x9, D 0xa, D 0xb, D 0xc, D 0xd, D 0xe, D 0xf,
    E 0x0, E 0x1, E 0x2, E 0x3, E 0x4, E 0x5, E 0x6, E 0x7,
    E 0x8, E 0x9, E 0xa, E 0xb, E 0xc, E 0xd, E 0xe, E 0xf,
    F 0x0, F 0x1, F 0x2, F 0x3, F 0x4 ]

/-! ### Decoding -/

/-- One time round a loop of `mbsrtowcs`: a character and the string behind it, or `break` with the state
and the string it leaves. -/
inductive Round
  | char (c : ℕ) (s : List ℕ)
  | stop (c : ℕ) (s : List ℕ)
  deriving DecidableEq, Repr

/-- The body of the loop that stores. -/
def storeRound (s : List ℕ) : Round :=
  if Word32.sub (s.headD 0) 1 < 0x7f then .char (s.headD 0) s.tail
  else if Word32.sub (s.headD 0) SA > SB - SA then .stop 0 s
  else
    let c := bittab.getD (s.headD 0 - SA) 0
    let s₁ := s.tail
    if OOB c (s₁.headD 0) ≠ 0 then .stop c s
    else
      let c := Word32.shl c 6 ||| Word32.sub (s₁.headD 0) 0x80
      let s₂ := s₁.tail
      if c &&& 2 ^ 31 ≠ 0 then
        if Word32.sub (s₂.headD 0) 0x80 ≥ 0x40 then .stop c s
        else
          let c := Word32.shl c 6 ||| Word32.sub (s₂.headD 0) 0x80
          let s₃ := s₂.tail
          if c &&& 2 ^ 31 ≠ 0 then
            if Word32.sub (s₃.headD 0) 0x80 ≥ 0x40 then .stop c s
            else .char (Word32.shl c 6 ||| Word32.sub (s₃.headD 0) 0x80) s₃.tail
          else .char c s₃
      else .char c s₂

/-- The body of the loop that counts, which leaves the state as the table has it. -/
def countRound (s : List ℕ) : Round :=
  if Word32.sub (s.headD 0) 1 < 0x7f then .char 0 s.tail
  else if Word32.sub (s.headD 0) SA > SB - SA then .stop 0 s
  else
    let c := bittab.getD (s.headD 0 - SA) 0
    let s₁ := s.tail
    if OOB c (s₁.headD 0) ≠ 0 then .stop c s
    else
      let s₂ := s₁.tail
      if c &&& 2 ^ 25 ≠ 0 then
        if Word32.sub (s₂.headD 0) 0x80 ≥ 0x40 then .stop c s
        else
          let s₃ := s₂.tail
          if c &&& 2 ^ 19 ≠ 0 then
            if Word32.sub (s₃.headD 0) 0x80 ≥ 0x40 then .stop c s
            else .char 0 s₃.tail
          else .char 0 s₃
      else .char 0 s₂

/-- What a conversion to wide characters does. -/
structure ToWide where
  /-- `none` for `(size_t)-1`. -/
  ret : Option ℕ
  errno : Option Errno := none
  /-- What is stored from `ws[0]` on. -/
  ws : List ℕ := []
  /-- Where `*src` is left; `none` for `NULL`. -/
  src : Option (List ℕ)
  deriving DecidableEq, Repr

/-- The storing loop around its body, with `wn0 - n` characters stored. -/
def storeLoop (body : List ℕ → Round) (wn0 : ℕ) : ℕ → List ℕ → List ℕ → ToWide
  | 0, s, ws => { ret := some wn0, ws, src := some s }
  | n + 1, s, ws =>
    match body s with
    | .char c s' => storeLoop body wn0 n s' (ws ++ [c])
    | .stop c s' =>
      if c = 0 ∧ s'.headD 0 = 0 then { ret := some (wn0 - (n + 1)), ws := ws ++ [0], src := none }
      else { ret := none, errno := some .EILSEQ, ws, src := some s' }

/-- The counting loop around its body, over a string at `*src`, with `k` characters counted.  It consumes at least a byte each time
round, so the length of the string is fuel enough. -/
def countLoop (body : List ℕ → Round) (src : List ℕ) : ℕ → List ℕ → ℕ → ToWide
  | 0, _, k => { ret := some k, src := some src }
  | fuel + 1, s, k =>
    match body s with
    | .char _ s' => countLoop body src fuel s' (k + 1)
    | .stop c s' =>
      if c = 0 ∧ s'.headD 0 = 0 then { ret := some k, src := some src }
      else { ret := none, errno := some .EILSEQ, src := some src }

/-- `mbsrtowcs(ws, &s, wn, 0)`; `null` when `ws` is. -/
def mbsrtowcs (null : Bool) (s : List ℕ) (wn : ℕ) : ToWide :=
  if null then countLoop countRound s (s.length + 1) s 0 else storeLoop storeRound wn wn s []

/-- `mbstowcs`. -/
def mbstowcs (null : Bool) (s : List ℕ) (wn : ℕ) : ToWide := mbsrtowcs null s wn

/-! ### Encoding -/

/-- `wcrtomb(s, wc, 0)` for an `s` that is not null: the bytes it stores, or `none` when it fails with
`EILSEQ`. -/
def wcrtomb (wc : ℕ) : Option (List ℕ) :=
  if wc < 0x80 then some [wc]
  else if wc < 0x800 then some [0xc0 ||| wc >>> 6, 0x80 ||| (wc &&& 0x3f)]
  else if wc < 0xd800 ∨ Word32.sub wc 0xe000 < 0x2000 then
    some [0xe0 ||| wc >>> 12, 0x80 ||| (wc >>> 6 &&& 0x3f), 0x80 ||| (wc &&& 0x3f)]
  else if Word32.sub wc 0x10000 < 0x100000 then
    some [0xf0 ||| wc >>> 18, 0x80 ||| (wc >>> 12 &&& 0x3f), 0x80 ||| (wc >>> 6 &&& 0x3f),
      0x80 ||| (wc &&& 0x3f)]
  else none

/-- What a conversion to bytes does. -/
structure ToBytes where
  /-- `none` for `(size_t)-1`. -/
  ret : Option ℕ
  errno : Option Errno := none
  /-- What is stored from `s[0]` on. -/
  s : List ℕ := []
  /-- Where `*ws` is left; `none` for `NULL`. -/
  ws : Option (List ℕ)
  deriving DecidableEq, Repr

/-- The counting loop of `wcsrtombs`. -/
def lengthLoop (src : List ℕ) : List ℕ → ℕ → ToBytes
  | [], n => { ret := some n, ws := some src }
  | wc :: ws, n =>
    if wc = 0 then { ret := some n, ws := some src }
    else if wc ≥ 0x80 then
      match wcrtomb wc with
      | none => { ret := none, errno := some .EILSEQ, ws := some src }
      | some bs => lengthLoop src ws (n + bs.length)
    else lengthLoop src ws (n + 1)

/-- The loop `while (n)` of `wcsrtombs`, which encodes into a buffer first. -/
def tailLoop (N : ℕ) : List ℕ → ℕ → List ℕ → ToBytes
  | [], n, s => if n = 0 then { ret := some N, s, ws := some [] } else
      { ret := some (N - n), s := s ++ [0], ws := none }
  | wc :: ws, n, s =>
    if n = 0 then { ret := some N, s, ws := some (wc :: ws) }
    else if Word32.sub wc 1 ≥ 0x7f then
      if wc = 0 then { ret := some (N - n), s := s ++ [0], ws := none }
      else
        match wcrtomb wc with
        | none => { ret := none, errno := some .EILSEQ, s, ws := some (wc :: ws) }
        | some bs =>
          if bs.length > n then { ret := some (N - n), s, ws := some (wc :: ws) }
          else tailLoop N ws (n - bs.length) (s ++ bs)
    else tailLoop N ws (n - 1) (s ++ [wc])

/-- The loop `while (n>=4)` and the one after it. -/
def bytesLoop (N : ℕ) : List ℕ → ℕ → List ℕ → ToBytes
  | [], n, s => if n < 4 then tailLoop N [] n s else
      { ret := some (N - n), s := s ++ [0], ws := none }
  | wc :: ws, n, s =>
    if n < 4 then tailLoop N (wc :: ws) n s
    else if Word32.sub wc 1 ≥ 0x7f then
      if wc = 0 then { ret := some (N - n), s := s ++ [0], ws := none }
      else
        match wcrtomb wc with
        | none => { ret := none, errno := some .EILSEQ, s, ws := some (wc :: ws) }
        | some bs => bytesLoop N ws (n - bs.length) (s ++ bs)
    else bytesLoop N ws (n - 1) (s ++ [wc])

/-- `wcsrtombs(s, &ws, n, 0)`; `null` when `s` is. -/
def wcsrtombs (null : Bool) (ws : List ℕ) (n : ℕ) : ToBytes :=
  if null then lengthLoop ws ws 0 else bytesLoop n ws n []

/-- `wcstombs`. -/
def wcstombs (null : Bool) (ws : List ℕ) (n : ℕ) : ToBytes := wcsrtombs null ws n

end OrbisCompat.Wchar
