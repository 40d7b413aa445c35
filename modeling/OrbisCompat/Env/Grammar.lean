import OrbisCompat.Env.Basic

/-!
# The env files, by what they say

What the files assign, with no buffer, no table and no order of calls: every line is an assignment or
none (`assignment`), and a key has the value of its last assignment, in the order of the files and then
of the lines (`KeyTable.lastValue (assignments marks fs)`).

The characters that mark a line as a comment are a parameter.
-/

namespace OrbisCompat.Env

/-- What a line assigns.  After leading blanks it must not start with a mark, and it must contain `'='`;
the key is what stands before the first `'='`, without trailing whitespace, and must not be empty; the
value is what stands behind it, without blanks in front and whitespace behind. -/
def assignment (marks line : List Char) : Option Entry :=
  let s := line.dropWhile isBlank
  let key := (s.takeWhile fun c => c != '=').rdropWhile isSpace
  if (s.head?.any fun c => marks.contains c) ∨ '=' ∉ s ∨ key = [] then none
  else some (key, (((s.dropWhile fun c => c != '=').tail.dropWhile isBlank).rdropWhile isSpace))

/-- The lines of all files, in order. -/
def allLines (fs : Files) : List (List Char) :=
  EnvFile.order.flatMap fun file => ((fs file).map TextLines.lines).getD []

/-- What the files assign, in order. -/
def assignments (marks : List Char) (fs : Files) : List Entry :=
  (allLines fs).filterMap (assignment marks)

/-- Files within the bounds of `Entry`, `kMaxLine` and `kMaxEntries`, and without NUL. -/
structure Admissible (marks : List Char) (fs : Files) : Prop where
  line : ∀ l ∈ allLines fs, l.length ≤ 510 ∧ '\x00' ∉ l
  entry : ∀ e ∈ assignments marks fs, e.1.length ≤ 63 ∧ e.2.length ≤ 255
  keys : ((assignments marks fs).map Prod.fst).dedup.length ≤ 64

/-- The marks of the source: a line that starts with CR counts as blank. -/
def commentMarks : List Char := ['#', '\r']

end OrbisCompat.Env
