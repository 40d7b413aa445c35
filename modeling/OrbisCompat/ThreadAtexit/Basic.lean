import Mathlib.Data.Int.Notation
import Mathlib.Logic.Function.Iterate
import OrbisCompat.Lib.NodeHeap

/-!
# `src/orbis_thread_atexit.c`: destructors of `thread_local` objects

The registrations of a thread are a linked list of nodes whose head is the thread's value of a pthread
key: `__cxa_thread_atexit_impl` pushes a node, and the destructor of the key (`orbis_thread_dtor_run`)
walks the list when the thread exits, calling and freeing every node.  POSIX sets the value to `NULL`
before it calls the destructor of the key with the old one, and does so again while the value is not
`NULL`, up to `PTHREAD_DESTRUCTOR_ITERATIONS` rounds.

A destructor is known by what it calls: running it makes further calls of `__cxa_thread_atexit_impl`, and
so on, so that a thread's registrations form trees (`Dtor`).  What the platform answers to a call is part
of the call (`Answers`), and `Malloc` hands out addresses.  The key is the one `pthread_once` made, and
other keys are not modelled.  `dso_handle` is not used.
-/

namespace OrbisCompat.ThreadAtexit

/-- What the platform answers to a call of `__cxa_thread_atexit_impl`. -/
structure Answers where
  /-- What `pthread_once` returns. -/
  once : ℤ := 0
  /-- Whether `malloc` has memory. -/
  memory : Bool := true
  /-- What `pthread_setspecific` returns. -/
  setspecific : ℤ := 0
  deriving DecidableEq, Repr

/-- A destructor: its function, its object, and the registrations it makes when it runs. -/
inductive Dtor
  | mk (func obj : ℕ) (calls : List (Answers × Dtor))

namespace Dtor

def func : Dtor → ℕ
  | mk func _ _ => func

def obj : Dtor → ℕ
  | mk _ obj _ => obj

def calls : Dtor → List (Answers × Dtor)
  | mk _ _ calls => calls

end Dtor

/-- A call of `__cxa_thread_atexit_impl`. -/
abbrev Call := Answers × Dtor

/-- `struct orbis_thread_dtor`. -/
structure Node where
  /-- `func` and `obj`, and what they do. -/
  dtor : Dtor
  next : ℕ
  /-- The number of the registration; not in the source. -/
  serial : ℕ

/-- What a thread does, as far as it shows. -/
inductive Event
  /-- A registration, with its number. -/
  | register (n func obj : ℕ)
  /-- Its destructor starts. -/
  | start (n func obj : ℕ)
  /-- Its node is freed. -/
  | free (n : ℕ)
  deriving DecidableEq, Repr

/-- A thread. -/
structure Thread where
  heap : NodeHeap Node
  /-- Its value of `orbis_thread_dtor_key`. -/
  value : ℕ
  /-- The registrations so far; not in the source. -/
  registered : ℕ
  /-- What it did so far, the latest first; not in the source. -/
  log : List Event

/-- Before its first registration. -/
def Thread.init : Thread := ⟨[], 0, 0, []⟩

/-- `malloc`: an address that no node has, and not `NULL`. -/
structure Malloc where
  addr : Thread → ℕ
  addr_ne_zero : ∀ t, addr t ≠ 0
  addr_fresh : ∀ t, addr t ∉ t.heap.map Prod.fst

variable (M : Malloc)

/-- `__cxa_thread_atexit_impl`. -/
def cxaThreadAtexitImpl (t : Thread) (c : Call) : Thread × ℤ :=
  if c.1.once ≠ 0 then (t, -1)
  else if !c.1.memory then (t, -1)
  else
    let d := M.addr t
    let node : Node := ⟨c.2, t.value, t.registered⟩
    let linked := { t with heap := (d, node) :: t.heap }
    if c.1.setspecific ≠ 0 then ({ linked with heap := linked.heap.free d }, -1)
    else
      ({ linked with
        value := d
        registered := t.registered + 1
        log := .register t.registered c.2.func c.2.obj :: t.log }, 0)

/-- One call after another. -/
def runCalls (t : Thread) (calls : List Call) : Thread :=
  calls.foldl (fun t c => (cxaThreadAtexitImpl M t c).1) t

/-- `orbis_thread_dtor_run`; it fails when it reads a node that is not allocated, or runs out of fuel. -/
def orbisThreadDtorRun : ℕ → Thread → ℕ → Option Thread
  | 0, _, _ => none
  | fuel + 1, t, d =>
    if d = 0 then some t
    else
      match t.heap.read d with
      | none => none
      | some node =>
        let next := node.next
        -- `d->func(d->obj)`
        let called := runCalls M
          { t with log := .start node.serial node.dtor.func node.dtor.obj :: t.log } node.dtor.calls
        orbisThreadDtorRun fuel
          { called with
            heap := called.heap.free d
            log := .free node.serial :: called.log } next

/-- The exit of a thread: that many rounds at most. -/
def threadExit : ℕ → Thread → Option Thread
  | 0, t => some t
  | rounds + 1, t =>
    if t.value = 0 then some t
    else
      (orbisThreadDtorRun M (t.heap.length + 1) { t with value := 0 } t.value).bind (threadExit rounds)

/-- A thread that makes these calls and exits. -/
def runThread (rounds : ℕ) (life : List Call) : Option Thread :=
  threadExit M rounds (runCalls M Thread.init life)

/-- `PTHREAD_DESTRUCTOR_ITERATIONS`. -/
def pthreadDestructorIterations : ℕ := 4

/-! ### What it is for -/

/-- The registrations whose destructor has not started, the most recent first. -/
def pending : List Event → List ℕ
  | [] => []
  | .register n _ _ :: log => n :: pending log
  | .start n _ _ :: log => (pending log).erase n
  | .free _ :: log => pending log

/-- Whenever a destructor starts, it is the one registered most recently of those that have not. -/
def LastInFirstOut (log : List Event) : Prop :=
  ∀ later n func obj earlier, log = later ++ .start n func obj :: earlier →
    (pending earlier).head? = some n

/-- The destructor of registration `n` starts. -/
def Event.starts (n : ℕ) : Event → Bool
  | start m _ _ => m == n
  | _ => false

/-- Every registration has its destructor run exactly once, on its object, and its node freed. -/
def Delivered (log : List Event) : Prop :=
  ∀ n func obj, .register n func obj ∈ log →
    log.filter (Event.starts n) = [.start n func obj] ∧ log.count (.free n) = 1

/-- A call that registers. -/
def Answers.ok (a : Answers) : Bool := a.once == 0 && a.memory && a.setspecific == 0

/-- The destructors that calls register, in order. -/
def registers (calls : List Call) : List Dtor := (calls.filter fun c => c.1.ok).map Prod.snd

/-- The destructors that those of a list register when they run one after another, the most recent
first. -/
def offspring (ds : List Dtor) : List Dtor := (ds.flatMap fun d => registers d.calls).reverse

/-- The destructors at nesting depth `k`, the most recent first: at depth `0` those that the thread
registers before it exits. -/
def level (life : List Call) (k : ℕ) : List Dtor := offspring^[k] (registers life).reverse

end OrbisCompat.ThreadAtexit
