import OrbisCompat.Lib.Utf8
import OrbisCompat.Wchar.Produced
import OrbisCompat.Wchar.Equiv.Utf8

/-!
# Valid characters in the output of `vswprintf`

The items of a format put characters of different origins into the buffer: literals and the arguments of `%lc` and
`%ls` as they are, those of `%c` and `%s` decoded, and what `snprintf` makes of numbers.  `ValidOutput` says that
whatever the buffer, only Unicode scalar values get into it, and that a character without one makes the call fail.

`Reached` are the places between items that the loop gets to; an item that it starts is `Handled` there.
-/

namespace OrbisCompat.Wchar

open Utf8

variable {Dbl LDbl : Type}

/-- The places that the loop gets to, with the number of characters produced before. -/
inductive Reached (libc : Libc Dbl LDbl) (fmt : List ℕ) (ap : List (Arg Dbl LDbl)) : ℕ → Place Dbl LDbl → Prop
  | start : Reached libc fmt ap 0 { f := fmt, aq := ap }
  | next {k p cs q} (h : Reached libc fmt ap k p) (hf : p.f.headD 0 ≠ 0) (hstop : k ≤ INT_MAX)
      (hitem : item libc p = .ok (cs, q)) : Reached libc fmt ap (k + cs.length) q

/-- The loop starts on the item at a place. -/
def Handled (libc : Libc Dbl LDbl) (fmt : List ℕ) (ap : List (Arg Dbl LDbl)) (p : Place Dbl LDbl) : Prop :=
  ∃ k, Reached libc fmt ap k p ∧ p.f.headD 0 ≠ 0 ∧ k ≤ INT_MAX

/-- The conversion specification at a place, with the arguments from that of the conversion on. -/
def Place.spec (p : Place Dbl LDbl) : Option (Locals Dbl LDbl) :=
  if p.f.headD 0 = '%'.toNat ∧ p.f.tail.headD 0 ≠ '%'.toNat then
    (readSpec { f := p.f.tail, aq := p.aq }).toOption
  else none

/-- The conversion at a place is `conv`, and it fetches `v`.  For `%lc` and `%ls`, `conv` is `C` and `S`. -/
def Place.Fetches {α : Type} (p : Place Dbl LDbl) (conv : Char) (as : Arg Dbl LDbl → Option α) (v : α) : Prop :=
  ∃ x aq, p.spec = some x ∧ x.conv = conv.toNat ∧ vaArg as x.aq = .ok (v, aq)

variable (libc : Libc Dbl LDbl) (fmt : List ℕ) (ap : List (Arg Dbl LDbl))

/-- The strings of `char` that the call meets consist of bytes: its arguments, and what `snprintf` makes. -/
structure NarrowBytes : Prop where
  string : ∀ p s, Handled libc fmt ap p → p.Fetches 's' Arg.asStr (some s) → IsBytes s
  number : ∀ cf args out, libc.snprintf cf args = some out → ∀ b ∈ out, b < 256

/-- The arguments of `%lc` and `%ls` hold only scalar values. -/
structure ValidWide : Prop where
  char : ∀ p v, Handled libc fmt ap p → p.Fetches 'C' Arg.asInt v → IsScalar v.toNat
  string : ∀ p s, Handled libc fmt ap p → p.Fetches 'S' Arg.asWstr (some s) → ∀ c ∈ s, IsScalar c

/-- The literals are scalar values, and the arguments of `%c` bytes below `0x80`. -/
structure Convertible : Prop where
  literal : ∀ p, Handled libc fmt ap p → p.f.headD 0 ≠ '%'.toNat → IsScalar (p.f.headD 0)
  char : ∀ p v, Handled libc fmt ap p → p.Fetches 'c' Arg.asInt v → v.toNat % 256 < 0x80

/-- `W32_WEOF`. -/
def W32_WEOF : ℕ := 0xffffffff

/-- What the output should be, for every buffer. -/
structure ValidOutput : Prop where
  /-- A buffer of scalar values stays one. -/
  buffer : ∀ s n out, (∀ i, IsScalar (s i)) → vswprintf libc s n fmt ap = some out → ∀ i, IsScalar (out.s i)
  /-- A `%c` that `btowc` cannot convert makes the call fail, as the same byte in the string of a `%s` does. -/
  refused : ∀ p v, Handled libc fmt ap p → p.Fetches 'c' Arg.asInt v → btowc v = W32_WEOF →
    ∀ s n out, vswprintf libc s n fmt ap = some out → out.ret = -1 ∧ (0 < n → out.errno = some .EILSEQ)

end OrbisCompat.Wchar
