import OrbisCompat.Env.Grammar

/-!
# Where the entries of an env file come from

`load_file` reads a line that is longer than its buffer in pieces, and parses every piece.  `stored` is
what it passes to `store` for a piece.  `FromBeginnings` says that only the beginnings of lines are
parsed: whatever is stored is what the beginning of a line assigns that is no comment.

`TailsIdle` is about the text alone: behind `kMaxLine - 1` characters, or a multiple of them, no line goes
on with an assignment.
-/

namespace OrbisCompat.Env

open TextLines

/-- What `load_file` passes to `store` for a line that it has read; `none` when it does not call it. -/
def stored (line : List Char) : Option Entry :=
  let key := trimFront (cString line)
  if skips key then none
  else if '=' ∉ key then none
  else
    let val := trimFront (key.dropWhile fun c => c != '=').tail
    let key := trimBack (key.takeWhile fun c => c != '=')
    let val := trimBack val
    if key ≠ [] then some (key, val) else none

/-- What `load_file` reads from a text, each piece with what stands before it in its line. -/
def pieces (text : List Char) : List (List Char × List Char) :=
  reads (kMaxLine - 1) text.length [] text

/-- The characters that make `load_file` skip a line that starts with them. -/
def skipMarks : List Char := ['#', '\n', '\r']

/-- The first character that is no blank is `'#'`. -/
def isComment (line : List Char) : Bool := (line.dropWhile isBlank).head? == some '#'

/-- `b` begins a line that is no comment, and assigns `e`. -/
def Beginning (text b : List Char) (e : Entry) : Prop :=
  (∃ l ∈ wholeLines text, isComment l = false ∧ b <+: l) ∧
    assignment skipMarks (cString b) = some e

/-- No part of a line is taken for a line of its own. -/
structure FromBeginnings (text : List Char) : Prop where
  /-- A piece that is stored starts its line, up to blanks; and the line up to the end of the piece
  assigns the same. -/
  parsed : ∀ x ∈ pieces text, ∀ e, stored x.2 = some e →
    (∀ c ∈ x.1, isBlank c = true) ∧ Beginning text (x.1 ++ x.2) e
  /-- Every key that `load_file` adds is assigned by the beginning of a line. -/
  keys : ∀ g, ∀ key ∈ KeyTable.keys (loadFile g (some text)), key ∈ KeyTable.keys g ∨
    ∃ b e, Beginning text b e ∧ key = snprintf keySize e.1

/-- What stands in a line after a multiple of `kMaxLine - 1` characters, not all of them blank, is no
assignment as far as the buffer reaches. -/
def TailsIdle (text : List Char) : Prop :=
  ∀ l ∈ wholeLines text, ∀ k, (∃ c ∈ l.take ((kMaxLine - 1) * k), isBlank c = false) →
    assignment skipMarks (cString ((l.drop ((kMaxLine - 1) * k)).take (kMaxLine - 1))) = none

end OrbisCompat.Env
