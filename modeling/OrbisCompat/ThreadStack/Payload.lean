import OrbisCompat.Lib.Lts
import OrbisCompat.Lib.Word64
import OrbisCompat.ThreadStack.Basic

/-!
# `src/orbis_thread.cpp`: the payload of the trampoline, on the heap of a process

Any number of threads call `pthread_create`, and the threads it creates come up on `threadTrampoline`.  A step is one access to
the heap, one call out of the file or one update of a counter; between two steps of a thread any other thread may take its
own.  The rest of the process allocates and frees blocks of its own meanwhile, so `malloc` may give a block out again as
soon as it is free.

Which attributes the thread is created with is `Basic`'s.
-/

namespace OrbisCompat.ThreadStack.Payload

/-- A block of the heap. -/
inductive Block
  /-- A `StartArg`, with what has been stored in its fields. -/
  | startArg (fn arg : Option ℕ)
  /-- A block of the rest of the process. -/
  | other
  deriving DecidableEq, Repr

/-- Where a thread is. -/
inductive Pc
  /-- It has not been created. -/
  | absent
  /-- In code of the process. -/
  | idle
  | gone
  /-- In `pthread_create`: before `malloc`, before the stores to `sa->fn` and `sa->arg`, before `scePthreadCreate`, and
  before the `free` after it has failed. -/
  | allocating (start arg : ℕ)
  | storingFn (p start arg : ℕ)
  | storingArg (p start arg : ℕ)
  | creating (start arg : ℕ) (sa : Option ℕ)
  | failed (p : ℕ)
  /-- In `threadTrampoline`: before the loads of `sa->fn` and `sa->arg`, before the `free`, before `stackOfSelf`. -/
  | readingFn (p : ℕ)
  | readingArg (p fn : ℕ)
  | freeing (p fn arg : ℕ)
  | deciding (fn arg : ℕ)
  /-- In `runOnItsOwnAltStack`: before `sigaltstack`, before the exchange of `g_altReported`. -/
  | installing (fn arg : ℕ)
  | reporting (fn arg : ℕ)
  /-- Before the call of the start routine. -/
  | starting (fn arg : ℕ)
  deriving DecidableEq, Repr

/-- A thread and its start routine. -/
structure Start where
  thread : ℕ
  fn : ℕ
  arg : ℕ
  deriving DecidableEq, Repr

/-- The heap, the threads and the statics.  The fields from `asked` on are not in the file: the threads created and what for, the
start routines called, the threads that have come up on the trampoline, those it has counted, how often the first thread was
reported, and whether a block was used that is not there; lists newest first. -/
structure State where
  heap : ℕ → Option Block
  pc : ℕ → Pc
  altOk : ℕ
  altFailed : ℕ
  altSkipped : ℕ
  altReported : Bool
  asked : List Start
  ran : List Start
  hopped : List ℕ
  counted : List ℕ
  reports : ℕ
  fault : Bool

namespace State

/-- The main thread. -/
def init : State where
  heap := fun _ => none
  pc := fun t => if t = 0 then .idle else .absent
  altOk := 0
  altFailed := 0
  altSkipped := 0
  altReported := false
  asked := []
  ran := []
  hopped := []
  counted := []
  reports := 0
  fault := false

@[simps] def setPc (s : State) (t : ℕ) (pc : Pc) : State :=
  { s with pc := fun u => if u = t then pc else s.pc u }

@[simps] def setBlock (s : State) (p : ℕ) (b : Option Block) : State :=
  { s with heap := fun q => if q = p then b else s.heap q }

/-- A use of a block that is not there. -/
@[simps] def crash (s : State) : State := { s with fault := true }

/-- `free(p)`. -/
def free (s : State) (p : ℕ) : State :=
  match s.heap p with
  | some _ => s.setBlock p none
  | none => s.crash

/-- A thread is counted. -/
@[simps] def count (s : State) (t : ℕ) : State := { s with counted := t :: s.counted }

end State

/-- A step. -/
inductive Label
  /-- A thread that the file does not create. -/
  | foreign (t : ℕ)
  | exit (t : ℕ)
  /-- `pthread_create` is called. -/
  | call (t start arg : ℕ)
  | malloc (t : ℕ) (p : Option ℕ)
  | store (t : ℕ)
  /-- `scePthreadCreate`, with the thread it creates when it returns 0. -/
  | create (t : ℕ) (rc : ℤ) (u : ℕ)
  | free (t : ℕ)
  | load (t : ℕ)
  /-- `stackOfSelf`. -/
  | stack (t : ℕ) (rc : ℤ) (size : ℕ)
  | altStack (t : ℕ) (rc : ℤ)
  | exchange (t : ℕ)
  | run (t : ℕ)
  /-- The rest of the process. -/
  | otherMalloc (p : ℕ)
  | otherFree (p : ℕ)
  deriving DecidableEq, Repr

/-- `malloc` in `pthread_create`. -/
def mallocStep (s : State) (t start arg : ℕ) : Option ℕ → Option State
  | none => some (s.setPc t (.creating start arg none))
  | some p =>
    if s.heap p = none then
      some ((s.setBlock p (some (.startArg none none))).setPc t (.storingFn p start arg))
    else none

/-- A store to the payload. -/
def storeStep (s : State) (t : ℕ) : Pc → Option State
  | .storingFn p start arg =>
    match s.heap p with
    | some (.startArg _ a) =>
      some ((s.setBlock p (some (.startArg (some start) a))).setPc t (.storingArg p start arg))
    | _ => some s.crash
  | .storingArg p start arg =>
    match s.heap p with
    | some (.startArg f _) =>
      some ((s.setBlock p (some (.startArg f (some arg)))).setPc t (.creating start arg (some p)))
    | _ => some s.crash
  | _ => none

/-- `createThread`, up to the `free`. -/
def createStep (s : State) (t start arg : ℕ) (sa : Option ℕ) (rc : ℤ) (u : ℕ) : Option State :=
  if rc ≠ 0 then
    match sa with
    | some p => some (s.setPc t (.failed p))
    | none => some (s.setPc t .idle)
  else if s.pc u = .absent then
    let s := { s with asked := ⟨u, start, arg⟩ :: s.asked }
    match sa with
    | some p => some ({ s with hopped := u :: s.hopped }.setPc t .idle |>.setPc u (.readingFn p))
    | none => some (s.setPc t .idle |>.setPc u (.starting start arg))
  else none

/-- A load from the payload. -/
def loadStep (s : State) (t : ℕ) : Pc → Option State
  | .readingFn p =>
    match s.heap p with
    | some (.startArg (some fn) _) => some (s.setPc t (.readingArg p fn))
    | _ => some s.crash
  | .readingArg p fn =>
    match s.heap p with
    | some (.startArg _ (some arg)) => some (s.setPc t (.freeing p fn arg))
    | _ => some s.crash
  | _ => none

def step (s : State) : Label → Option State
  | .foreign t => if s.pc t = .absent then some (s.setPc t .idle) else none
  | .exit t => if s.pc t = .idle then some (s.setPc t .gone) else none
  | .call t start arg => if s.pc t = .idle then some (s.setPc t (.allocating start arg)) else none
  | .malloc t p =>
    match s.pc t with
    | .allocating start arg => mallocStep s t start arg p
    | _ => none
  | .store t => storeStep s t (s.pc t)
  | .create t rc u =>
    match s.pc t with
    | .creating start arg sa => createStep s t start arg sa rc u
    | _ => none
  | .free t =>
    match s.pc t with
    | .failed p => some ((s.free p).setPc t .idle)
    | .freeing p fn arg => some ((s.free p).setPc t (.deciding fn arg))
    | _ => none
  | .load t => loadStep s t (s.pc t)
  | .stack t rc size =>
    match s.pc t with
    | .deciding fn arg =>
      if rc = 0 ∧ size ≥ kAltStackMinThreadStack then some (s.setPc t (.installing fn arg))
      else some (({ s with altSkipped := Word64.add s.altSkipped 1 }.count t).setPc t (.starting fn arg))
    | _ => none
  | .altStack t rc =>
    match s.pc t with
    | .installing fn arg =>
      if rc = 0 then some (({ s with altOk := Word64.add s.altOk 1 }.count t).setPc t (.reporting fn arg))
      else some (({ s with altFailed := Word64.add s.altFailed 1 }.count t).setPc t (.reporting fn arg))
    | _ => none
  | .exchange t =>
    match s.pc t with
    | .reporting fn arg =>
      some ({ s with altReported := true, reports := if s.altReported then s.reports else s.reports + 1 }.setPc t
        (.starting fn arg))
    | _ => none
  | .run t =>
    match s.pc t with
    | .starting fn arg => some ({ s with ran := ⟨t, fn, arg⟩ :: s.ran }.setPc t .idle)
    | _ => none
  | .otherMalloc p => if s.heap p = none then some (s.setBlock p (some .other)) else none
  | .otherFree p => if s.heap p = some .other then some (s.setBlock p none) else none

/-- Runs from the start of a process. -/
def Reaches (ls : List Label) (s : State) : Prop := Lts.Run (Lts.Next step) State.init ls s

end OrbisCompat.ThreadStack.Payload
