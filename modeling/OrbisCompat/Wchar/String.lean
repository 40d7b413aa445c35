import OrbisCompat.Lib.Buffer
import OrbisCompat.Lib.Word64
import OrbisCompat.Wchar.Strto

/-!
# `src/orbis_wchar32.c`: wide strings

A wide string is the list of its elements up to the terminator; a read behind the terminator has no result.
-/

namespace OrbisCompat.Wchar

/-- The contents of a wide string in memory. -/
structure WideString where
  chars : List ℕ
  /-- The terminator ends the string. -/
  ne_zero : ∀ c ∈ chars, c ≠ 0
  /-- An element has 32 bits. -/
  lt_two_pow : ∀ c ∈ chars, c < 2 ^ 32
  /-- The string and its terminator are in the address space, four bytes to the element. -/
  length_lt : chars.length < 2 ^ 62

/-- `s[i]`. -/
def deref (s : List ℕ) (i : ℕ) : Option ℕ := (s ++ [0])[i]?

/-- `l < r ? -1 : l > r`, of two elements. -/
def wcompare (l r : ℕ) : ℤ := if Word32.toInt l < Word32.toInt r then -1 else if Word32.toInt r < Word32.toInt l then 1 else 0

/-- `wmemcmp(l, r, n)`, of the elements from `l` and from `r` on. -/
def wmemcmp : ℕ → List ℕ → List ℕ → Option ℤ
  | 0, _, _ => some 0
  | n + 1, a :: l, b :: r => if a = b then wmemcmp n l r else some (wcompare a b)
  | _ + 1, _, _ => none

/-- `for (; p(k); k++);`, in at most as many turns as `fuel`. -/
def scan (p : ℕ → Option Bool) : ℕ → ℕ → Option ℕ
  | 0, _ => none
  | fuel + 1, k => do if ← p k then scan p fuel (k + 1) else some k

/-! ### Comparison -/

/-- `wcscmp`. -/
def wcscmp : List ℕ → List ℕ → ℤ
  | a :: l, b :: r => if a = b then wcscmp l r else wcompare a b
  | l, r => wcompare (l.headD 0) (r.headD 0)

/-- `wcsncmp`. -/
def wcsncmp : ℕ → List ℕ → List ℕ → ℤ
  | 0, _, _ => 0
  | n + 1, a :: l, b :: r => if a = b then wcsncmp n l r else wcompare a b
  | _ + 1, l, r => wcompare (l.headD 0) (r.headD 0)

/-- `wcscoll`, `wcscoll_l` and `__wcscoll_l`. -/
def wcscoll (l r : List ℕ) : ℤ := wcscmp l r

/-- `int` of the difference of two `unsigned`. -/
def toInt32 (d : ℤ) : ℤ := Word32.toInt (d % 2 ^ 32).toNat

/-- The loop of `wcsncasecmp`, and what it returns. -/
def wcsncasecmpLoop (towlower : ℕ → ℕ) : ℕ → List ℕ → List ℕ → ℤ
  | n + 1, a :: l, b :: r =>
    if a = b ∨ towlower a = towlower b then wcsncasecmpLoop towlower n l r else toInt32 (towlower a - towlower b)
  | _, l, r => toInt32 (towlower (l.headD 0) - towlower (r.headD 0))

/-- `wcsncasecmp`. -/
def wcsncasecmp (towlower : ℕ → ℕ) (l r : List ℕ) : ℕ → ℤ
  | 0 => 0
  | n + 1 => wcsncasecmpLoop towlower n l r

/-! ### Spans and tokens -/

/-- `wcsspn`. -/
def wcsspn (c : List ℕ) : List ℕ → ℕ
  | [] => 0
  | x :: s => if (wcschr c x).isSome then wcsspn c s + 1 else 0

/-- The loop of `wcscspn`. -/
def wcscspnLoop (c : List ℕ) : List ℕ → ℕ
  | [] => 0
  | x :: s => if (wcschr c x).isSome then 0 else wcscspnLoop c s + 1

/-- `wcscspn`, which leaves sets of no and of one element to other functions. -/
def wcscspn (c s : List ℕ) : ℕ :=
  match c with
  | [] => s.length
  | [x] => (wcschr s x).getD s.length
  | _ => wcscspnLoop c s

/-- `wcspbrk`, as the distance from `s`. -/
def wcspbrk (s b : List ℕ) : Option ℕ := if s.drop (wcscspn b s) ≠ [] then some (wcscspn b s) else none

/-- The string that starts at `b[i]`. -/
def stringAt (b : List ℕ) (i : ℕ) : Option (List ℕ) := Buffer.cstr 0 (b.drop i)

/-- `wcstok(s, sep, &p)`, in the array `b`: the token, the array, and `p`. -/
def wcstok (b : List ℕ) (s : Option ℕ) (sep : List ℕ) (p : Option ℕ) : Option (Option ℕ × List ℕ × Option ℕ) :=
  match s <|> p with
  | none => some (none, b, p)
  | some s => do
    let t ← stringAt b s
    let s := s + wcsspn sep t
    let t := t.drop (wcsspn sep t)
    if t = [] then some (none, b, none)
    else
      let q := s + wcscspn sep t
      if t.drop (wcscspn sep t) ≠ [] then do
        let b ← Buffer.store b q 0
        some (some s, b, some (q + 1))
      else some (some s, b, none)

/-- The loop of a caller, until there is no token: where the tokens are, and the array. -/
def tokens (sep : List ℕ) : ℕ → List ℕ → Option ℕ → Option ℕ → Option (List ℕ × List ℕ)
  | 0, _, _, _ => none
  | fuel + 1, b, s, p => do
    let (r, b, p) ← wcstok b s sep p
    match r with
    | none => some ([], b)
    | some r => do
      let (rs, b) ← tokens sep fuel b none p
      some (r :: rs, b)

end OrbisCompat.Wchar
