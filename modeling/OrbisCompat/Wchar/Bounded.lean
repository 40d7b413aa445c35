import OrbisCompat.Wchar.Printf

/-!
# `src/orbis_wchar32.c`: `wcsnrtombs`

The conversion to bytes that `wn` bounds as well.  It encodes each character before it looks at the room that is left, into
`tmp` when that is less than `W32_MB_LEN_MAX`.
-/

namespace OrbisCompat.Wchar

/-- The loop of `wcsnrtombs`, with the bytes `s` stored and room for `n` more; `null` when `dst` is. -/
def boundedLoop (null : Bool) (src : List ℕ) : ℕ → List ℕ → ℕ → List ℕ → ℕ → ToBytes
  | 0, ws, _, s, cnt => { ret := some cnt, s, ws := some (if null then src else ws) }
  | wn + 1, ws, n, s, cnt =>
    match wcrtomb (ws.headD 0) with
    | none => { ret := none, errno := some .EILSEQ, s, ws := some (if null then src else ws) }
    | some bs =>
      if ¬null ∧ n < W32_MB_LEN_MAX ∧ bs.length > n then { ret := some cnt, s, ws := some ws }
      else
        let s := if null then s else s ++ bs
        if ws.headD 0 = 0 then { ret := some cnt, s, ws := if null then some src else none }
        else boundedLoop null src wn ws.tail (n - bs.length) s (cnt + bs.length)

/-- `wcsnrtombs(dst, &ws, wn, n, 0)`. -/
def wcsnrtombs (null : Bool) (ws : List ℕ) (wn n : ℕ) : ToBytes :=
  boundedLoop null ws wn ws (if null then 0 else n) [] 0

end OrbisCompat.Wchar
