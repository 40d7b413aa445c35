import Mathlib.Data.Int.Notation
import Mathlib.Tactic.NormNum

/-!
# `src/orbis_thread.cpp`: `pthread_create`

The interposer gives a thread that did not choose a stack size what the main thread has, and starts every
thread on a trampoline that sets an alternate signal stack up.  A call is followed through the functions of
libkernel and libc that it calls (`Event`); what they answer is part of the call, with `0` for a success.

Function pointers and heap blocks are addresses.  The counters, the logging and the census are not modelled.
-/

namespace OrbisCompat.ThreadStack

/-- `PTHREAD_STACK_MIN`. -/
def pthreadStackMin : ℕ := 2048

/-- `kAltStackSize`. -/
def kAltStackSize : ℕ := 64 * 1024

/-- `kAltStackMinThreadStack`. -/
def kAltStackMinThreadStack : ℕ := 4 * kAltStackSize

/-- `pthread_attr_t`. -/
structure Attr where
  stacksize : ℕ
  detachstate : ℤ
  guardsize : ℕ
  schedpolicy : ℤ
  priority : ℤ
  inheritsched : ℤ
  scope : ℤ
  stackaddr : ℕ
  deriving DecidableEq, Repr

/-- The attribute objects of the file. -/
inductive AttrObject
  /-- `a` of `stackOfSelf`. -/
  | self
  /-- `raised` of `pthread_create`. -/
  | raised
  deriving DecidableEq, Repr

/-- The attributes that `scePthreadCreate` is given. -/
inductive Passed
  /-- The caller's own, which may be `NULL`. -/
  | caller
  | copy (attr : Attr)
  deriving DecidableEq, Repr

/-- The attributes as `scePthreadCreate` finds them. -/
def Passed.attr (caller : Option Attr) : Passed → Option Attr
  | .caller => caller
  | .copy x => some x

/-- `StartArg`. -/
structure StartArg where
  fn : ℕ
  arg : ℕ
  deriving DecidableEq, Repr

/-- Where a thread starts. -/
inductive Entry
  | start (fn arg : ℕ)
  /-- `threadTrampoline`, with the payload it is given and where that is. -/
  | trampoline (p : ℕ) (sa : StartArg)
  deriving DecidableEq, Repr

/-- What a call does, as far as it shows. -/
inductive Event
  | malloc (p : Option ℕ)
  | free (p : ℕ)
  | attrInit (o : AttrObject) (rc : ℤ)
  | attrDestroy (o : AttrObject)
  /-- `scePthreadCreate`. -/
  | create (attr : Passed) (entry : Entry) (rc : ℤ)
  /-- `sigaltstack`. -/
  | altStack
  /-- A start routine is called. -/
  | run (fn arg : ℕ)
  deriving DecidableEq, Repr

/-! ### The floor -/

/-- What `stackOfSelf` is answered. -/
structure SelfAnswers where
  /-- `pthread_attr_init`. -/
  init : ℤ := 0
  /-- `pthread_attr_get_np`. -/
  get : ℤ := 0
  /-- `pthread_attr_getstacksize`. -/
  size : ℤ := 0
  deriving DecidableEq, Repr

/-- What `stackOfSelf` returns, and what it does. -/
structure SelfStack where
  size : ℕ
  rc : ℤ
  events : List Event
  deriving DecidableEq, Repr

/-- `stackOfSelf`, on a thread with a stack of this size. -/
def stackOfSelf (stack : ℕ) (a : SelfAnswers) : SelfStack :=
  if a.init ≠ 0 then ⟨0, a.init, [.attrInit .self a.init]⟩
  else
    let events := [.attrInit .self a.init, .attrDestroy .self]
    if a.get = 0 then ⟨if a.size = 0 then stack else 0, a.size, events⟩ else ⟨0, a.get, events⟩

/-- `mainThreadStack`, which asks the thread it is called on. -/
def mainThreadStack (stack : ℕ) (a : SelfAnswers) : ℕ :=
  let r := stackOfSelf stack a
  if r.rc = 0 then r.size else 0

/-- `~size_t(0)`: `g_floor` before it is resolved. -/
def unresolved : ℕ := 2 ^ 64 - 1

/-- What `resolveFloor` returns, what it leaves in `g_floor`, and what it does. -/
structure Floor where
  value : ℕ
  cache : ℕ
  events : List Event
  deriving DecidableEq, Repr

/-- `resolveFloor`, with what is in `g_floor`, on a thread with a stack of this size. -/
def resolveFloor (cache stack : ℕ) (a : SelfAnswers) : Floor :=
  if cache ≠ unresolved then ⟨cache, cache, []⟩
  else
    let v := mainThreadStack stack a
    let v := if v ≠ 0 ∧ v < pthreadStackMin then 0 else v
    ⟨v, v, (stackOfSelf stack a).events⟩

/-! ### The new thread -/

/-- `threadTrampoline`, on a thread with a stack of this size. -/
def threadTrampoline (p : ℕ) (sa : StartArg) (stack : ℕ) (a : SelfAnswers) : List Event :=
  let r := stackOfSelf stack a
  [.free p] ++ r.events ++
    if r.rc = 0 ∧ r.size ≥ kAltStackMinThreadStack then [.altStack, .run sa.fn sa.arg]
    else [.run sa.fn sa.arg]

/-- What a thread does up to the call of its start routine. -/
def threadRun (stack : ℕ) (a : SelfAnswers) : Entry → List Event
  | .start fn arg => [.run fn arg]
  | .trampoline p sa => threadTrampoline p sa stack a

/-! ### The call -/

/-- What `pthread_create` is answered. -/
structure Answers where
  malloc : Option ℕ
  /-- The answers to `resolveFloor`. -/
  self : SelfAnswers := {}
  getstacksize : ℤ := 0
  /-- `pthread_attr_init` of the copy. -/
  init : ℤ := 0
  getdetachstate : ℤ := 0
  setdetachstate : ℤ := 0
  getguardsize : ℤ := 0
  setguardsize : ℤ := 0
  setstacksize : ℤ := 0
  /-- `scePthreadCreate`. -/
  create : ℤ := 0
  deriving DecidableEq, Repr

/-- What `pthread_create` returns, leaves in `g_floor` and does. -/
structure Outcome where
  ret : ℤ
  cache : ℕ
  passed : Passed
  entry : Entry
  events : List Event
  deriving DecidableEq, Repr

/-- `createThread`. -/
def createThread (attr : Passed) (entry : Entry) (sa : Option ℕ) (rc : ℤ) : List Event :=
  .create attr entry rc ::
    if rc ≠ 0 then
      match sa with
      | some p => [.free p]
      | none => []
    else []

/-- `entry` and `entryArg`. -/
def entryOf (malloc : Option ℕ) (start arg : ℕ) : Entry :=
  match malloc with
  | some p => .trampoline p ⟨start, arg⟩
  | none => .start start arg

/-- `want`. -/
def wanted (attr : Option Attr) (a : Answers) : ℕ :=
  match attr with
  | some x => if a.getstacksize ≠ 0 then 0 else x.stacksize
  | none => 0

/-- The copy, with what is carried across.  `fresh` is what `pthread_attr_init` stores. -/
def carried (fresh : Attr) (attr : Option Attr) (a : Answers) : Attr :=
  match attr with
  | none => fresh
  | some x =>
    let raised :=
      if a.getdetachstate = 0 ∧ a.setdetachstate = 0 then { fresh with detachstate := x.detachstate }
      else fresh
    if a.getguardsize = 0 ∧ a.setguardsize = 0 then { raised with guardsize := x.guardsize } else raised

/-- `pthread_create`, on a thread with a stack of this size. -/
def pthreadCreate (fresh : Attr) (cache stack : ℕ) (attr : Option Attr) (start arg : ℕ) (a : Answers) :
    Outcome :=
  let entry := entryOf a.malloc start arg
  let floor := resolveFloor cache stack a.self
  let events := .malloc a.malloc :: floor.events
  let create := fun passed => createThread passed entry a.malloc a.create
  if floor.value = 0 then ⟨a.create, floor.cache, .caller, entry, events ++ create .caller⟩
  else if wanted attr a ≥ floor.value then
    ⟨a.create, floor.cache, .caller, entry, events ++ create .caller⟩
  else if a.init ≠ 0 then
    ⟨a.create, floor.cache, .caller, entry, events ++ [.attrInit .raised a.init] ++ create .caller⟩
  else
    let passed : Passed :=
      if a.setstacksize = 0 then .copy { carried fresh attr a with stacksize := floor.value } else .caller
    ⟨a.create, floor.cache, passed, entry,
      events ++ [.attrInit .raised a.init] ++ create passed ++ [.attrDestroy .raised]⟩

end OrbisCompat.ThreadStack
