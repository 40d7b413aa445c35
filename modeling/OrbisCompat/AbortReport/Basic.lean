import OrbisCompat.App.Basic

/-!
# `src/orbis_abort_report.c`: the line of a report

`orbis_report` formats a tag and a message into an array of 1024 bytes and ends the line there.  It is called with a message that
`abort_message`, `__assert_fail` and `abort` have formatted into an array of their own.

A format with its arguments is the message that they make, and an array that is not initialised holds any bytes.
-/

namespace OrbisCompat.AbortReport

open App

def ascii (text : String) : List UInt8 := text.toList.map Char.toUInt8

/-- What `"[orbis] %s: "` makes of a tag. -/
def head (tag : List UInt8) : List UInt8 := ascii "[orbis] " ++ (tag ++ ascii ": ")

/-- `(size_t)` of an `int`. -/
def sizeOfInt (n : ℤ) : ℕ := (n % 2 ^ 64).toNat

/-- `orbis_report`, up to the line that it hands to `sceKernelDebugOutText`; `none` when it reads or stores behind the array. -/
def orbisReport (lib : Stdio) (line tag : List UInt8) (message : Option (List UInt8)) : Option (List UInt8) := do
  let (n, line) ← vsnprintf lib line 0 1024 (some (head tag))
  let n := sizeOfInt n
  let (_, line) ← vsnprintf lib line n (Word64.sub (Word64.sub 1024 n) 2) message
  let n := (← Buffer.cstr 0 line).length
  let line ← Buffer.store line n newline
  let line ← Buffer.store line (n + 1) 0
  Buffer.cstr 0 line

/-- A message that is formatted into an array of its own and reported with `"%s"`. -/
def reportString (lib : Stdio) (msg line tag : List UInt8) (message : Option (List UInt8)) : Option (List UInt8) := do
  let (_, msg) ← vsnprintf lib msg 0 msg.length message
  let string ← Buffer.cstr 0 msg
  orbisReport lib line tag (some string)

/-- `abort_message`, with its two arrays. -/
def abortMessage (lib : Stdio) (msg line : List UInt8) (message : Option (List UInt8)) : Option (List UInt8) :=
  reportString lib msg line (ascii "libc++abi") message

/-- What `"%s:%d: %s: assertion failed: %s"` makes of the arguments of `__assert_fail`, `none` for `NULL`. -/
def assertText (expr file : Option (List UInt8)) (line : ℤ) (func : Option (List UInt8)) : List UInt8 :=
  file.getD (ascii "?") ++ ascii ":" ++ ascii (toString line) ++ ascii ": " ++ func.getD (ascii "?") ++
    ascii ": assertion failed: " ++ expr.getD (ascii "?")

/-- `__assert_fail`. -/
def assertFail (lib : Stdio) (msg buf : List UInt8) (expr file : Option (List UInt8)) (line : ℤ) (func : Option (List UInt8)) :
    Option (List UInt8) :=
  reportString lib msg buf (ascii "assert") (some (assertText expr file line func))

/-- What `abort` formats, with what `"%p"` makes of the return address and of `orbis_report`. -/
def abortText (caller report : List UInt8) : List UInt8 :=
  ascii "abort() called from " ++ caller ++ ascii "  (orbis_report is at " ++ report ++
    ascii " in this image - subtract its .elf offset for the module base)"

/-- `abort`, up to `raise`. -/
def abort (lib : Stdio) (msg line caller report : List UInt8) : Option (List UInt8) :=
  reportString lib msg line (ascii "abort") (some (abortText caller report))

/-- `ORBIS_ABORT_LOG_DEFAULT`. -/
def abortLogDefault : List UInt8 := ascii "/data/orbis-abort.log"

/-- `logpath`, from what `orbis_env_get` returns. -/
def logPath (env : Option (List UInt8)) : List UInt8 :=
  match env with
  | none | some [] => abortLogDefault
  | some path => path

end OrbisCompat.AbortReport
