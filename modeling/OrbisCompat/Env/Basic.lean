import OrbisCompat.Lib.KeyTable
import OrbisCompat.Lib.TextLines

/-!
# `src/orbis_env.cpp`: switches from the environment and from files

`orbis_env_get` answers from the environment of the process, and else from four files of lines
`KEY=VALUE`, which are read once, the first time that one is needed.  The entries are kept in a table of
`kMaxEntries`, in which a later assignment of a key overwrites an earlier one.

A C string is the list of its characters, without the terminator.  A file is the text in it, or `none`
when `fopen` fails.
-/

namespace OrbisCompat.Env

/-- `kMaxEntries`. -/
def kMaxEntries : ℕ := 64

/-- `kMaxLine`. -/
def kMaxLine : ℕ := 512

/-- `sizeof(Entry::key)`. -/
def keySize : ℕ := 64

/-- `sizeof(Entry::val)`. -/
def valSize : ℕ := 256

/-- `Entry`: its `key` and its `val`. -/
abbrev Entry := List Char × List Char

/-- The four files. -/
inductive EnvFile
  /-- `/data/orbis-env.txt`. -/
  | orbis
  /-- `/data/tempest-env.txt`. -/
  | tempest
  /-- `/data/retroarch-env.txt`. -/
  | retroarch
  /-- `/data/retroarch-glcore-env.txt`. -/
  | retroarchGlcore
  deriving DecidableEq, Repr

/-- The order in which `load_once` reads them. -/
def EnvFile.order : List EnvFile := [orbis, tempest, retroarch, retroarchGlcore]

/-- What is in the files. -/
abbrev Files := EnvFile → Option (List Char)

/-- The environment of the process, as `getenv` answers from it. -/
abbrev Environ := List Char → Option (List Char)

/-- The characters that `trim_front` skips. -/
def isBlank (c : Char) : Bool := c == ' ' || c == '\t'

/-- The characters that `trim_back` cuts off. -/
def isSpace (c : Char) : Bool := c == ' ' || c == '\t' || c == '\n' || c == '\r'

/-- `trim_front`. -/
def trimFront (s : List Char) : List Char := s.dropWhile isBlank

/-- `trim_back`. -/
def trimBack (s : List Char) : List Char := s.rdropWhile isSpace

/-- `snprintf(buf, size, "%s", s)`. -/
def snprintf (size : ℕ) (s : List Char) : List Char := s.take (size - 1)

/-- The C string in a buffer. -/
def cString (buf : List Char) : List Char := buf.takeWhile fun c => c != '\x00'

/-- `store`. -/
def store (g : CTable Entry) (key val : List Char) : CTable Entry :=
  match KeyTable.indexOf g key with
  | some i => g.set i ((g.slot i).1, snprintf valSize val)
  | none =>
    if kMaxEntries ≤ g.n then g
    else (g.set g.n (snprintf keySize key, snprintf valSize val)).setLen (g.n + 1)

/-- The guard of `load_file`: a comment or a blank line. -/
def skips : List Char → Bool
  | [] => true
  | c :: _ => c == '#' || c == '\n' || c == '\r'

/-- What `load_file` does with a line that it has read. -/
def loadLine (g : CTable Entry) (line : List Char) : CTable Entry :=
  let key := trimFront (cString line)
  if skips key then g
  else if '=' ∉ key then g
  else
    let val := trimFront (key.dropWhile fun c => c != '=').tail
    let key := trimBack (key.takeWhile fun c => c != '=')
    let val := trimBack val
    if key ≠ [] then store g key val else g

/-- The loop of `load_file`, with fuel for as many lines. -/
def loadLines : ℕ → CTable Entry → List Char → CTable Entry
  | 0, g, _ => g
  | fuel + 1, g, text =>
    -- `fgets` returns `NULL` when nothing is left
    if text = [] then g
    else
      loadLines fuel (loadLine g (TextLines.readLine (kMaxLine - 1) text).1)
        (TextLines.readLine (kMaxLine - 1) text).2

/-- `load_file`; no text has more lines than characters. -/
def loadFile (g : CTable Entry) : Option (List Char) → CTable Entry
  | none => g
  | some text => loadLines text.length g text

/-- The statics of the file. -/
structure State where
  /-- `g_entry` and `g_count`. -/
  entry : CTable Entry
  /-- `g_loaded`. -/
  loaded : Bool

/-- Before the first call. -/
def State.init : State := ⟨⟨0, fun _ => ([], [])⟩, false⟩

/-- `load_once`. -/
def loadOnce (fs : Files) (st : State) : State :=
  if st.loaded then st
  else ⟨EnvFile.order.foldl (fun g file => loadFile g (fs file)) st.entry, true⟩

/-- `orbis_env_get`; `none` is a null pointer. -/
def orbisEnvGet (fs : Files) (environ : Environ) (st : State) : Option (List Char) →
    State × Option (List Char)
  | none => (st, none)
  | some name =>
    if name = [] then (st, none)
    else
      match environ name with
      | some (c :: v) => (st, some (c :: v))
      | _ => (loadOnce fs st, KeyTable.find (loadOnce fs st).entry name)

/-- The state after earlier calls, each with the environment that it met. -/
def after (fs : Files) (earlier : List (Environ × Option (List Char))) : State :=
  earlier.foldl (fun st c => (orbisEnvGet fs c.1 st c.2).1) State.init

end OrbisCompat.Env
