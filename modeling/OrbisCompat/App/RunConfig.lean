import OrbisCompat.App.Basic

/-!
# `optional/ps4_app.cpp`: the run config

`readRunConfig` reads a file of lines `key=value` into an array of 512 bytes and takes it apart there: every end that it finds, of a
line, of a comment, of a key, becomes a terminator in the array.  A pointer into the array is its offset; a function has no result
when it reads or stores behind the array's end.
-/

namespace OrbisCompat.App

/-- `s_autoexit` and `s_frameKlog`. -/
structure RunConfig where
  autoexit : Bool
  frameKlog : Bool
  deriving DecidableEq, Repr

/-- The string at `buf + p`. -/
def cstrAt (buf : List UInt8) (p : ℕ) : Option (List UInt8) := Buffer.cstr 0 (buf.drop p)

def isBlank (c : UInt8) : Bool := c == ' '.toUInt8 || c == '\t'.toUInt8

/-- What `trim` cuts off at the end. -/
def isTrailing (c : UInt8) : Bool := isBlank c || c == '\r'.toUInt8

/-- The second loop of `trim`, for the string `s` of `n` bytes. -/
def trimEnd (buf : List UInt8) (s : ℕ) : ℕ → ℕ
  | 0 => 0
  | n + 1 => if (buf[s + n]?).any isTrailing then trimEnd buf s n else n + 1

/-- `trim(buf + s)`. -/
def trim (buf : List UInt8) (s : ℕ) : Option (List UInt8) := do
  let text ← cstrAt buf s
  let buf ← Buffer.store buf (s + (text.takeWhile (· ≠ '#'.toUInt8)).length) 0
  let text ← cstrAt buf s
  Buffer.store buf (s + trimEnd buf s text.length) 0

def autoexitKey : List UInt8 := "autoexit".toList.map Char.toUInt8

def frameKlogKey : List UInt8 := "frame-klog".toList.map Char.toUInt8

/-- The end of `applyOption`. -/
def RunConfig.set (cfg : RunConfig) (key : List UInt8) (on : Bool) : RunConfig :=
  if key = autoexitKey then { cfg with autoexit := on }
  else if key = frameKlogKey then { cfg with frameKlog := on }
  else cfg

/-- `applyOption(buf + line)`. -/
def applyOption (cfg : RunConfig) (buf : List UInt8) (line : ℕ) : Option (RunConfig × List UInt8) := do
  let text ← cstrAt buf line
  let line := line + (text.takeWhile isBlank).length
  let buf ← trim buf line
  let text ← cstrAt buf line
  if '='.toUInt8 ∈ text then
    let eq := line + (text.takeWhile (· ≠ '='.toUInt8)).length
    let buf ← Buffer.store buf eq 0
    let key ← cstrAt buf line
    let val ← cstrAt buf (eq + 1)
    some (cfg.set key (val == ['1'.toUInt8]), buf)
  -- a line without an `=`, and one that `trim` has left nothing of
  else some (cfg, buf)

/-- The loop of `readRunConfig` from `buf + p` on, for as many lines as there is fuel. -/
def readLines : ℕ → RunConfig → List UInt8 → ℕ → Option RunConfig
  | 0, _, _, _ => none
  | fuel + 1, cfg, buf, p => do
    let text ← cstrAt buf p
    if text = [] then some cfg
    else if newline ∈ text then
      let nl := p + (text.takeWhile (· ≠ newline)).length
      let buf ← Buffer.store buf nl 0
      let (cfg, buf) ← applyOption cfg buf p
      readLines fuel cfg buf (nl + 1)
    else
      let (cfg, _) ← applyOption cfg buf p
      some cfg

/-- What `sceKernelRead` returns and has stored, when it is asked for 511 bytes. -/
structure ReadAnswer where
  got : ℕ
  bytes : List UInt8
  length_le : bytes.length ≤ 511

/-- The length of the file; an errno arrives as a huge one. -/
def ReadAnswer.len (a : ReadAnswer) : ℕ := if a.got < 512 then a.got else 0

/-- What `s_runCfgNote` tells. -/
inductive RunCfgNote
  | missing (fd : ℤ)
  | found (len : ℕ) (cfg : RunConfig)
  deriving DecidableEq, Repr

/-- `readRunConfig`, with what `sceKernelOpen` returns. -/
def readRunConfig (cfg : RunConfig) (fd : ℤ) (a : ReadAnswer) : Option (RunConfig × RunCfgNote) :=
  if fd < 0 then some (cfg, .missing fd)
  else do
    let buf := a.bytes ++ List.replicate (512 - a.bytes.length) 0
    let buf ← Buffer.store buf a.len 0
    let cfg ← readLines 512 cfg buf 0
    some (cfg, .found a.len cfg)

end OrbisCompat.App
