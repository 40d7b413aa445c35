import OrbisCompat.Wchar.String
import OrbisCompat.Wchar.Printf

/-!
# `src/orbis_wchar32.c`: copies of wide strings

`wmemmove` is about two parts of one memory, whose elements are counted from address 0.  The other functions are about an array
and a string that is not in it; they have no result when they store behind the array's end.
-/

namespace OrbisCompat.Wchar

/-! ### `wmemmove` -/

/-- The elements of the memory. -/
abbrev WideMem := ℕ → ℕ

/-- `while (n--) d[n] = s[n];`. -/
def moveBack (m : WideMem) (d s : ℕ) : ℕ → WideMem
  | 0 => m
  | n + 1 => moveBack (Function.update m (d + n) (m (s + n))) d s n

/-- `while (n--) *d++ = *s++;`. -/
def moveFront (m : WideMem) (d s : ℕ) : ℕ → WideMem
  | 0 => m
  | n + 1 => moveFront (Function.update m d (m s)) (d + 1) (s + 1) n

/-- `wmemmove`; an element has four bytes. -/
def wmemmove (m : WideMem) (d s n : ℕ) : WideMem :=
  if d = s then m
  else if Word64.sub (4 * d) (4 * s) < n * 4 % 2 ^ 64 then moveBack m d s n
  else moveFront m d s n

/-! ### Into an array -/

/-- `while (n--) *d++ = c;`, from `d[i]` on. -/
def wmemset (d : List ℕ) (i c : ℕ) : ℕ → Option (List ℕ)
  | 0 => some d
  | n + 1 => do
    let d ← Buffer.store d i c
    wmemset d (i + 1) c n

/-- `while ((*d++ = *s++));`, from `d[i]` on. -/
def wcscpyFrom (d : List ℕ) (i : ℕ) : List ℕ → Option (List ℕ)
  | [] => Buffer.store d i 0
  | c :: s => do
    let d ← Buffer.store d i c
    wcscpyFrom d (i + 1) s

/-- `wcscpy`. -/
def wcscpy (d s : List ℕ) : Option (List ℕ) := wcscpyFrom d 0 s

/-- `while (n && *s) n--, *d++ = *s++;`, from `d[i]` on: the array, where it stops, and what is left of `n`. -/
def copyUpTo (d : List ℕ) (i : ℕ) : ℕ → List ℕ → Option (List ℕ × ℕ × ℕ)
  | n + 1, c :: s => do
    let d ← Buffer.store d i c
    copyUpTo d (i + 1) n s
  | n, _ => some (d, i, n)

/-- `wcsncpy`. -/
def wcsncpy (d s : List ℕ) (n : ℕ) : Option (List ℕ) := do
  let (d, i, n) ← copyUpTo d 0 n s
  wmemset d i 0 n

/-- `wcpcpy`: the array, and the distance of the result from its start. -/
def wcpcpy (d s : List ℕ) : Option (List ℕ × ℕ) := do
  let d ← wcscpy d s
  some (d, s.length)

/-- `wcpncpy`. -/
def wcpncpy (d s : List ℕ) (n : ℕ) : Option (List ℕ × ℕ) := do
  let d ← wcsncpy d s n
  some (d, wcsnlen s n)

/-- `wcscat`. -/
def wcscat (dest src : List ℕ) : Option (List ℕ) := do
  let t ← stringAt dest 0
  wcscpyFrom dest t.length src

/-- `wcsncat`. -/
def wcsncat (d s : List ℕ) (n : ℕ) : Option (List ℕ) := do
  let t ← stringAt d 0
  let (d, i, _) ← copyUpTo d t.length n s
  Buffer.store d i 0

/-- `wmemcpy`, of elements that are known. -/
def wmemcpy (d : List ℕ) (s : List ℕ) (n : ℕ) : Option (List ℕ) := Buffer.storeFrom d 0 (s.take n)

/-- `__wcsxfrm_l`: what it returns, and the array. -/
def wcsxfrm (dest src : List ℕ) (n : ℕ) : Option (ℕ × List ℕ) :=
  let l := src.length
  if l < n then do
    let dest ← wmemcpy dest (src ++ [0]) (l + 1)
    some (l, dest)
  else if n ≠ 0 then do
    let dest ← wmemcpy dest (src ++ [0]) (n - 1)
    let dest ← Buffer.store dest (n - 1) 0
    some (l, dest)
  else some (l, dest)

end OrbisCompat.Wchar
