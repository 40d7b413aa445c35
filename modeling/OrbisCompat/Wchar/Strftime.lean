import OrbisCompat.Wchar.Multibyte
import OrbisCompat.Wchar.Strto

/-!
# `src/orbis_wchar32.c`: `wcsftime`

The format is encoded, `strftime` formats it into a narrow buffer, and the result is decoded, once to count and once to store.
What `strftime` does is a parameter: it writes all of its result, or returns zero.
-/

namespace OrbisCompat.Wchar

/-- `strftime`, over the type of the times. -/
structure Strftime (Tm : Type) where
  /-- The full result for a format. -/
  result : List ℕ → Tm → List ℕ
  result_bytes : ∀ f tm, ∀ b ∈ result f tm, 0 < b ∧ b < 256
  /-- What it returns, and leaves in the buffer, for a capacity. -/
  call : List ℕ → ℕ → List ℕ → Tm → ℕ × List ℕ
  call_fits : ∀ out cap f tm, cap ≤ out.length → (result f tm).length < cap →
    call out cap f tm = ((result f tm).length, result f tm ++ 0 :: out.drop ((result f tm).length + 1))
  call_too_long : ∀ out cap f tm, cap ≤ out.length → cap ≤ (result f tm).length → (call out cap f tm).1 = 0

/-- `sizeof fstack`. -/
def fstackSize : ℕ := 256

/-- `sizeof ostack`. -/
def ostackSize : ℕ := 512

/-- The capacity of the narrow buffer. -/
def narrowCap (n : ℕ) : ℕ := if n > 2 ^ 20 then 4 * 2 ^ 20 + 1 else 4 * n + 1

/-- Memory for `k` elements: an array of the size on the stack, or what `malloc` returns when that is `large`. -/
def Storage.take (M : Storage) (large : Bool) (size k : ℕ) : Option (List ℕ) :=
  if large then if M.malloc k then some (M.uninit k) else none else some (M.uninit size)

/-- What is done with `strftime`'s result `k` in `out`: the array `s`, and what is returned. -/
def storeResult (s : List ℕ) (n k : ℕ) (out : List ℕ) : Option (List ℕ × ℕ) :=
  if k ≠ 0 then do
    let text ← Buffer.cstr 0 out
    match (mbstowcs true text 0).ret with
    | some wl =>
      if wl < n then do
        let s ← Buffer.storeFrom s 0 (mbstowcs false text n).ws
        some (s, wl)
      else some (s, 0)
    -- what `strftime` has written is not UTF-8
    | none => some (s, 0)
  else some (s, 0)

/-- `__wcsftime_l(s, n, f, tm, loc)`: the array `s` after it, and what it returns; `none` when it stores behind the end of an
array, or hands on one without a terminator. -/
def wcsftimeL {Tm : Type} (lib : Strftime Tm) (M : Storage) (s : List ℕ) (n : ℕ) (f : List ℕ) (tm : Tm) :
    Option (List ℕ × ℕ) :=
  if n = 0 then some (s, 0)
  else do
    let s ← Buffer.store s 0 0
    match (wcstombs true f 0).ret with
    -- the format is not made of characters
    | none => some (s, 0)
    | some fl =>
      match M.take (fl ≥ fstackSize) fstackSize (fl + 1) with
      | none => some (s, 0)
      | some nf => do
        let nf ← Buffer.storeFrom nf 0 (wcstombs false f (fl + 1)).s
        match M.take (narrowCap n > ostackSize) ostackSize (narrowCap n) with
        | none => some (s, 0)
        | some out => do
          let format ← Buffer.cstr 0 nf
          let (k, out) := lib.call out (narrowCap n) format tm
          storeResult s n k out

/-- `wcsftime`. -/
def wcsftime {Tm : Type} (lib : Strftime Tm) (M : Storage) (s : List ℕ) (n : ℕ) (f : List ℕ) (tm : Tm) :
    Option (List ℕ × ℕ) :=
  wcsftimeL lib M s n f tm

end OrbisCompat.Wchar
