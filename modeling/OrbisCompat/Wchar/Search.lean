import OrbisCompat.Wchar.String
import OrbisCompat.Wchar.Strto
import OrbisCompat.Wchar.Printf

/-!
# `src/orbis_wchar32.c`: `wcsstr`

The two-way search.  A result is `none` when the run reads behind a terminator, and else the place that is found, as the
distance from the start of the haystack, or no place.
-/

namespace OrbisCompat.Wchar

/-- One of the two loops for the maximal suffix; `gt` is the comparison that makes the candidate's letters a part of the period.
Of the four numbers only `ip` wraps, which starts at −1. -/
def maximalSuffix (gt : ℕ → ℕ → Bool) (n : List ℕ) (l : ℕ) : ℕ → ℕ → ℕ → ℕ → ℕ → Option (ℕ × ℕ)
  | 0, _, _, _, _ => none
  | fuel + 1, ip, jp, k, p =>
    if jp + k < l then do
      let a ← deref n (Word64.add ip k)
      let b ← deref n (jp + k)
      if a = b then
        if k = p then maximalSuffix gt n l fuel ip (jp + p) 1 p
        else maximalSuffix gt n l fuel ip jp (k + 1) p
      else if gt a b then maximalSuffix gt n l fuel ip (jp + k) 1 (Word64.sub (jp + k) ip)
      else maximalSuffix gt n l fuel jp (jp + 1) 1 1
    else some (ip, p)

/-- The two loops, and the choice between their suffixes: `ms` and `p`. -/
def factorize (n : List ℕ) (l : ℕ) : Option (ℕ × ℕ) := do
  let (ms, p₀) ← maximalSuffix (fun a b => Word32.toInt a > Word32.toInt b) n l (2 * l) (2 ^ 64 - 1) 0 1 1
  let (ip, p) ← maximalSuffix (fun a b => Word32.toInt a < Word32.toInt b) n l (2 * l) (2 ^ 64 - 1) 0 1 1
  if Word64.add ip 1 > Word64.add ms 1 then some (ip, p) else some (ms, p₀)

/-- The update of the incremental end-of-haystack pointer `z`; `none` when less than `l` elements are left from `x` on. -/
def updateEnd (h : List ℕ) (l x z : ℕ) : Option ℕ :=
  if Word64.sub z x < l then
    let grow := l ||| 63
    match wmemchr 0 grow (h.drop z) with
    | some z₂ => if Word64.sub (z + z₂) x < l then none else some (z + z₂)
    | none => some (z + grow)
  else some z

/-- The comparison of the left half: `for (; k>mem && n[k-1] == h[k-1]; k--)`. -/
def compareLeft (h n : List ℕ) (x mem : ℕ) : ℕ → Option ℕ
  | 0 => some 0
  | k + 1 =>
    if k + 1 > mem then do
      let a ← deref n k
      let b ← deref h (x + k)
      if a = b then compareLeft h n x mem k else some (k + 1)
    else some (k + 1)

/-- The test of the comparison of the right half: `n[k] && n[k] == h[k]`. -/
def sameRight (h n : List ℕ) (x k : ℕ) : Option Bool := do
  let a ← deref n k
  if a = 0 then some false
  else do
    let b ← deref h (x + k)
    some (a = b)

/-- The search loop, at the place `x` of the haystack. -/
def searchLoop (h n : List ℕ) (l ms p mem₀ : ℕ) : ℕ → ℕ → ℕ → ℕ → Option (Option ℕ)
  | 0, _, _, _ => none
  | fuel + 1, x, z, mem =>
    (updateEnd h l x z).elim (some none) fun z => do
      let k ← scan (sameRight h n x) (n.length + 1) (max (Word64.add ms 1) mem)
      let c ← deref n k
      if c ≠ 0 then searchLoop h n l ms p mem₀ fuel (x + Word64.sub k ms) z 0
      else do
        let k ← compareLeft h n x mem (Word64.add ms 1)
        if k ≤ mem then some (some x) else searchLoop h n l ms p mem₀ fuel (x + p) z mem₀

/-- The test of the loop for the length of the needle: `n[l] && h[l]`. -/
def bothGoOn (h n : List ℕ) (l : ℕ) : Option Bool := do
  let a ← deref n l
  if a = 0 then some false
  else do
    let b ← deref h l
    some (b ≠ 0)

/-- `twoway_wcsstr`. -/
def twowayWcsstr (h n : List ℕ) : Option (Option ℕ) := do
  let l ← scan (bothGoOn h n) (n.length + 1) 0
  let c ← deref n l
  -- hit the end of the haystack
  if c ≠ 0 then some none
  else do
    let (ms, p) ← factorize n l
    let c ← wmemcmp (Word64.add ms 1) (n ++ [0]) ((n ++ [0]).drop p)
    -- is the needle periodic?
    if c ≠ 0 then searchLoop h n l ms (Word64.add (max ms (Word64.sub (Word64.sub l ms) 1)) 1) 0 (h.length + 1) 0 0 0
    else searchLoop h n l ms p (l - p) (h.length + 1) 0 0 0

/-- `wcsstr`. -/
def wcsstr (h n : List ℕ) : Option (Option ℕ) := do
  if (← deref n 0) = 0 then some (some 0)
  else if (← deref h 0) = 0 then some none
  else
    match wcschr h (n.headD 0) with
    | none => some none
    | some hh => do
      if (← deref n 1) = 0 then some (some hh)
      else if (← deref h (hh + 1)) = 0 then some none
      else (twowayWcsstr (h.drop hh) n).map (·.map (hh + ·))

/-- `wcswcs`. -/
def wcswcs (haystack needle : List ℕ) : Option (Option ℕ) := wcsstr haystack needle

end OrbisCompat.Wchar
