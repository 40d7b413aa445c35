import OrbisCompat.Wchar.Printf
import OrbisCompat.Wchar.Restart

/-!
# `src/orbis_wchar32.c`: `mbtowc`, with its reads

`mbtowc` over the bytes that a caller lets it read, from the last byte of a character to the first.  One test of the table's
entry against `n` stands for the checks of the length that `mbrtowc` makes between two bytes.
-/

namespace OrbisCompat.Wchar.Restart

/-- From the read of a fourth byte on. -/
def mbtowcFourth (mem : List ℕ) (c : ℕ) (s : ℤ) : Option (Option (ℕ × ℕ)) := do
  let b ← get mem s
  if Word32.sub b 0x80 ≥ 0x40 then some none else some (some (4, Word32.shl c 6 ||| Word32.sub b 0x80))

/-- From the read of a third byte on. -/
def mbtowcThird (mem : List ℕ) (c : ℕ) (s : ℤ) : Option (Option (ℕ × ℕ)) := do
  let b ← get mem s
  if Word32.sub b 0x80 ≥ 0x40 then some none
  else
    let c := Word32.shl c 6 ||| Word32.sub b 0x80
    if c &&& 2 ^ 31 = 0 then some (some (3, c)) else mbtowcFourth mem c (s + 1)

/-- From the read of a second byte on. -/
def mbtowcSecond (mem : List ℕ) (c : ℕ) (s : ℤ) : Option (Option (ℕ × ℕ)) := do
  let b ← get mem s
  if OOB c b ≠ 0 then some none
  else
    let c := Word32.shl c 6 ||| Word32.sub b 0x80
    if c &&& 2 ^ 31 = 0 then some (some (2, c)) else mbtowcThird mem c (s + 1)

/-- `mbtowc(&wc, s, n)`: what it returns and stores, or `some none` when it fails with `EILSEQ`; `none` when it reads a byte
that is not there. -/
def mbtowc (mem : List ℕ) (s : ℤ) (n : ℕ) : Option (Option (ℕ × ℕ)) :=
  if n = 0 then some none
  else do
    let b ← get mem s
    if b < 0x80 then some (some (if b ≠ 0 then 1 else 0, b))
    else if Word32.sub b SA > SB - SA then some none
    else
      let c := bittab.getD (b - SA) 0
      if n < 4 ∧ Word32.shl c (6 * n - 6) &&& 2 ^ 31 ≠ 0 then some none else mbtowcSecond mem c (s + 1)

end OrbisCompat.Wchar.Restart
