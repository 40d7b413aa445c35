import OrbisCompat.Lib.Buffer
import OrbisCompat.Lib.Word64

/-!
# `optional/ps4_app.cpp`: the lines of the log

A line is formatted into an array of 512 bytes, behind a tag, and goes out on two channels.  A format with its arguments is the
message that they make.
-/

namespace OrbisCompat.App

/-! ### `vsnprintf` -/

/-- What the standard does not say of `vsnprintf`. -/
structure Stdio where
  /-- What a call that fails has stored by then, for a message and a size. -/
  leftover : Option (List UInt8) → ℕ → List UInt8
  length_leftover : ∀ message size, (leftover message size).length ≤ size

/-- The message, where there is one and an `int` is enough for its length. -/
def printed (message : Option (List UInt8)) : Option (List UInt8) := message.filter fun m => m.length < 2 ^ 31

/-- `vsnprintf(buf + off, size, ...)`: what it returns, and the array; `none` when it stores behind the array's end. -/
def vsnprintf (lib : Stdio) (buf : List UInt8) (off size : ℕ) (message : Option (List UInt8)) : Option (ℤ × List UInt8) :=
  match printed message with
  | none => do
    let buf ← Buffer.storeFrom buf off (lib.leftover message size)
    some (-1, buf)
  | some m =>
    if size = 0 then some (m.length, buf)
    else do
      let buf ← Buffer.storeFrom buf off (m.take (size - 1) ++ [0])
      some (m.length, buf)

/-! ### A line -/

def newline : UInt8 := '\n'.toUInt8

/-- `len==0 || buf[len-1]!='\n'`, for `buf + off`. -/
def unended (buf : List UInt8) (off len : ℕ) : Option Bool :=
  if len = 0 then some true else (buf[off + (len - 1)]?).map (· != newline)

/-- The end of `formatLine`, with `len` bytes of the line in front of it. -/
def endLine (buf : List UInt8) (off len : ℕ) : Option (List UInt8) := do
  if ← unended buf off len then
    let buf ← Buffer.store buf (off + len) newline
    Buffer.store buf (off + (len + 1)) 0
  else Buffer.store buf (off + len) 0

/-- `formatLine(buf + off, sz, ...)`; `none` when it reads or stores behind the array's end. -/
def formatLine (lib : Stdio) (buf : List UInt8) (off sz : ℕ) (message : Option (List UInt8)) : Option (List UInt8) := do
  let (n, buf) ← vsnprintf lib buf off (Word64.sub sz 2) message
  let len := if n < 0 then 0 else n.toNat
  let len := if len > Word64.sub sz 2 then Word64.sub sz 2 else len
  endLine buf off len

/-- What `"[%s] "` makes of a tag. -/
def tagText (app : List UInt8) : List UInt8 := '['.toUInt8 :: app ++ [']'.toUInt8, ' '.toUInt8]

/-- `tagLine(buf, sz, ...)`, with the tag `app`. -/
def tagLine (lib : Stdio) (app buf : List UInt8) (sz : ℕ) (message : Option (List UInt8)) : Option (List UInt8) := do
  let (head, buf) ← vsnprintf lib buf 0 sz (some (tagText app))
  let off := if head < 0 ∨ head.toNat ≥ Word64.sub sz 2 then 0 else head.toNat
  formatLine lib buf off (Word64.sub sz off) message

/-! ### The channels -/

inductive Channel
  | netlog
  | klog
  deriving DecidableEq, Repr

/-- What decides where a line goes. -/
structure Settings where
  /-- `s_frameKlog`. -/
  frameKlog : Bool
  /-- What `orbis_netlog_ready` returns. -/
  netlogReady : ℤ

def klogWanted (s : Settings) : Bool := s.frameKlog || s.netlogReady == 0

/-- The string in an array of 512 bytes that `tagLine` has filled. -/
def tagged (lib : Stdio) (app : List UInt8) (message : Option (List UInt8)) : Option (List UInt8) := do
  let buf ← tagLine lib app (List.replicate 512 0) 512 message
  Buffer.cstr 0 buf

/-- `ps4_vlog`, as the lines on the channels. -/
def ps4Vlog (lib : Stdio) (s : Settings) (app : List UInt8) (message : Option (List UInt8)) :
    Option (List (Channel × List UInt8)) := do
  let line ← tagged lib app message
  some ((.netlog, line) :: if klogWanted s then [(.klog, line)] else [])

/-- `ps4_log_frame`. -/
def ps4LogFrame (lib : Stdio) (s : Settings) (app : List UInt8) (message : Option (List UInt8)) :
    Option (List (Channel × List UInt8)) := do
  let line ← tagged lib app message
  some ((.netlog, line) :: if klogWanted s then [(.klog, line)] else [])

/-- `ps4_vlog_fatal`. -/
def ps4VlogFatal (lib : Stdio) (app : List UInt8) (message : Option (List UInt8)) : Option (List (Channel × List UInt8)) := do
  let line ← tagged lib app message
  some [(.klog, line), (.netlog, line)]

end OrbisCompat.App
