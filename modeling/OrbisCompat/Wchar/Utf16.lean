import OrbisCompat.Wchar.Mbrtowc

/-!
# `src/orbis_wchar32.c`: `c16rtomb` and `mbrtoc16`

The conversions between bytes and 16-bit units.  The state object of `mbrtoc16` is that of `mbrtowc`, whose words have the
high bit set, or the second half of a pair.  That of `c16rtomb` is `0`, or what the first half of a pair adds to the
character.

`deliver` is a caller that has bytes in chunks and takes the units, and `c16rtombs` one that has units.
-/

namespace OrbisCompat.Wchar

/-! ### To bytes -/

/-- What `c16rtomb` does. -/
structure C16rtomb where
  /-- `none` for `(size_t)-1`. -/
  ret : Option ℕ
  errno : Option Errno := none
  /-- What is stored at `s`. -/
  s : List ℕ := []
  /-- What is left in the state object. -/
  st : ℕ
  deriving DecidableEq, Repr

/-- `ilseq:` -/
def c16Ilseq : C16rtomb := { ret := none, errno := some .EILSEQ, st := 0 }

/-- `wcrtomb(s, wc, 0)` at the end, with `0` in the state object. -/
def c16Encode (wc : ℕ) : C16rtomb :=
  match wcrtomb wc with
  | none => c16Ilseq
  | some bs => { ret := some bs.length, s := bs, st := 0 }

/-- `c16rtomb(s, c16, &x)`; `null` when `s` is. -/
def c16rtomb (null : Bool) (c16 x : ℕ) : C16rtomb :=
  if null then if x ≠ 0 then c16Ilseq else { ret := some 1, st := x }
  else if x = 0 ∧ Word32.sub c16 0xd800 < 0x400 then
    { ret := some 0, st := Word32.shl (Word32.sub c16 0xd7c0) 10 }
  else if x ≠ 0 then
    if Word32.sub c16 0xdc00 ≥ 0x400 then c16Ilseq else c16Encode (Word32.sub ((x + c16) % 2 ^ 32) 0xdc00)
  else c16Encode c16

/-! ### To units -/

/-- What `mbrtoc16` does. -/
structure Mbrtoc16 where
  /-- `-1`, `-2` and `-3` are the values of these as a `size_t`. -/
  ret : ℤ
  errno : Option Errno := none
  /-- What is stored at `pc16`, unless that is null. -/
  c16 : Option ℕ := none
  /-- What is left in the state object. -/
  st : ℕ
  deriving DecidableEq, Repr

/-- `(int)*pending > 0`. -/
def Pending (st : ℕ) : Prop := st ≠ 0 ∧ st < 2 ^ 31

instance (st : ℕ) : Decidable (Pending st) := inferInstanceAs (Decidable (_ ∧ _))

/-- `mbrtoc16(pc16, s, n, &st)` for an `s` that is not null. -/
def mbrtoc16Some (s : List ℕ) (n st : ℕ) : Mbrtoc16 :=
  if Pending st then { ret := -3, c16 := some (st % 2 ^ 16), st := 0 }
  else
    let r := mbrtowc (some s) n st
    if 0 ≤ r.ret ∧ r.ret ≤ 4 then
      let wc := r.wc.getD 0
      if wc ≥ 0x10000 then
        { ret := r.ret, c16 := some ((0xd7c0 + wc >>> 10) % 2 ^ 16), st := (wc &&& 0x3ff) + 0xdc00 }
      else { ret := r.ret, c16 := some (wc % 2 ^ 16), st := r.st }
    else { ret := r.ret, errno := r.errno, st := r.st }

/-- `mbrtoc16`, which converts the terminator and stores nothing for a null `s`. -/
def mbrtoc16 (s : Option (List ℕ)) (n st : ℕ) : Mbrtoc16 :=
  match s with
  | none => { mbrtoc16Some [0] 1 st with c16 := none }
  | some s => mbrtoc16Some s n st

/-! ### Callers -/

/-- What a caller of `mbrtoc16` knows after some calls. -/
structure Units where
  st : ℕ
  units : List ℕ := []
  /-- Whether a call has failed. -/
  failed : Bool := false
  deriving DecidableEq, Repr

/-- The caller's loop over a chunk, until a call has read all of it and has nothing to deliver.  A character takes a call for
each of its units, and one more call reads the end, so twice the length is fuel enough. -/
def deliverChunk : ℕ → List ℕ → Units → Units
  | 0, _, f => f
  | fuel + 1, chunk, f =>
    let r := mbrtoc16 (some chunk) chunk.length f.st
    if r.ret = -1 then { f with st := r.st, failed := true }
    else if r.ret = -2 then { f with st := r.st }
    else if r.ret = -3 then deliverChunk fuel chunk { f with st := r.st, units := f.units ++ r.c16.toList }
    else deliverChunk fuel (chunk.drop (if r.ret = 0 then 1 else r.ret.toNat))
      { f with st := r.st, units := f.units ++ r.c16.toList }

/-- Bytes in chunks, from the initial state on. -/
def deliver (chunks : List (List ℕ)) : Units :=
  chunks.foldl (fun f chunk => if f.failed then f else deliverChunk (2 * chunk.length + 2) chunk f) { st := 0 }

/-- Units one by one, from the state `x` on: the bytes and the state at the end, unless a call fails. -/
def c16rtombs : List ℕ → ℕ → Option (List ℕ × ℕ)
  | [], x => some ([], x)
  | u :: us, x =>
    let r := c16rtomb false u x
    if r.ret = none then none else (c16rtombs us r.st).map fun (bs, x) => (r.s ++ bs, x)

end OrbisCompat.Wchar
