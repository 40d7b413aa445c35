import OrbisCompat.Lib.Chunked
import OrbisCompat.Wchar.Multibyte

/-!
# `src/orbis_wchar32.c`: `mbrtowc`

The conversion of one character that may be cut anywhere.  Between two calls the state object holds `0`, or the word of
the table machine: the entry of the lead byte, shifted by the bytes behind it that have come.

A call is given the state object, and a pointer to `n` bytes.  `feed` is a caller that has a string in chunks: it goes on
behind the bytes that a call consumed, or with the next chunk after `(size_t)-2`, until a call fails.
-/

namespace OrbisCompat.Wchar

/-- What a call leaves behind. -/
structure Mbrtowc where
  /-- `-1` and `-2` are the values of these as a `size_t`. -/
  ret : ℤ
  errno : Option Errno := none
  /-- What is stored at `wc`, or in `dummy`. -/
  wc : Option ℕ := none
  /-- What is left in the state object. -/
  st : ℕ
  deriving DecidableEq, Repr

/-- `ilseq:` -/
def mbrIlseq : Mbrtowc := { ret := -1, errno := some .EILSEQ, st := 0 }

/-- From `loop:` on, and past it when `n` is `0`. -/
def mbrLoop (N c : ℕ) (s : List ℕ) : ℕ → Mbrtowc
  | 0 => { ret := -2, st := c }
  | n + 1 =>
    let c := Word32.shl c 6 ||| Word32.sub (s.headD 0) 0x80
    let s := s.tail
    if c &&& 2 ^ 31 = 0 then { ret := N - n, wc := some c, st := 0 }
    else if n ≠ 0 ∧ Word32.sub (s.headD 0) 0x80 ≥ 0x40 then mbrIlseq
    else mbrLoop N c s n

/-- From the first `if (n)` on. -/
def mbrRest (N c : ℕ) (s : List ℕ) (n : ℕ) : Mbrtowc :=
  if n ≠ 0 ∧ OOB c (s.headD 0) ≠ 0 then mbrIlseq else mbrLoop N c s n

/-- `mbrtowc(wc, src, n, &st)`; `none` for a null `src`. -/
def mbrtowc (src : Option (List ℕ)) (n st : ℕ) : Mbrtowc :=
  match src with
  | none => if st ≠ 0 then mbrIlseq else { ret := 0, st }
  | some s =>
    if n = 0 then { ret := -2, st }
    else if st = 0 then
      if s.headD 0 < 0x80 then { ret := if s.headD 0 ≠ 0 then 1 else 0, wc := some (s.headD 0), st }
      else if Word32.sub (s.headD 0) SA > SB - SA then mbrIlseq
      else mbrRest n (bittab.getD (s.headD 0 - SA) 0) s.tail (n - 1)
    else mbrRest n st s n

/-! ### A caller -/

/-- What a caller makes of a result: a NUL is returned as `0`, and consumed all the same. -/
def Mbrtowc.called (r : Mbrtowc) : Chunked.Called ℕ ℕ :=
  if r.ret = -2 then .more r.st
  else if r.ret = -1 then .bad r.st
  else .item (r.wc.getD 0) (if r.ret = 0 then 1 else r.ret.toNat) r.st

/-- A string in chunks, from the initial state on. -/
def feed (chunks : List (List ℕ)) : Chunked.Fed ℕ ℕ :=
  Chunked.feed (fun chunk st => (mbrtowc (some chunk) chunk.length st).called) 0 chunks

end OrbisCompat.Wchar
