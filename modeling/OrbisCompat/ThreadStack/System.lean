import OrbisCompat.Lib.Lts
import OrbisCompat.ThreadStack.Basic

/-!
# `src/orbis_thread.cpp`: a process and its floors

The threads of a process call `pthread_create` and `threadStackFloor` of the modules they run in.  Every module
that links the file has a `g_floor` of its own.  Threads that no module created come up with stacks of any size.

`threadStackProbe` is a sequence of such calls by one thread.
-/

namespace OrbisCompat.ThreadStack

/-- A process. -/
structure Process where
  /-- The stacks of the threads by their numbers; the main thread is the first one. -/
  stack : List ℕ
  /-- `g_floor` of each module. -/
  cache : ℕ → ℕ

namespace Process

/-- The main thread has a stack of this size. -/
def init (main : ℕ) : Process := ⟨[main], fun _ => unresolved⟩

@[simps] def setCache (s : Process) (m v : ℕ) : Process :=
  { s with cache := fun k => if k = m then v else s.cache k }

@[simps] def addThread (s : Process) (stack : ℕ) : Process := { s with stack := s.stack ++ [stack] }

/-- A step, of the thread `t` in the module `m`. -/
inductive Label
  /-- A thread that no module creates. -/
  | foreign (stack : ℕ)
  | pthreadCreate (m t : ℕ) (attr : Option Attr) (start arg : ℕ) (a : Answers)
  | threadStackFloor (m t : ℕ) (a : SelfAnswers)
  deriving DecidableEq

/-- One step.  A thread created with `NULL` gets what `pthread_attr_init` stores. -/
def step (fresh : Attr) (s : Process) : Label → Option Process
  | .foreign stack => some (s.addThread stack)
  | .pthreadCreate m t attr start arg a =>
    s.stack[t]?.map fun stack =>
      let o := ThreadStack.pthreadCreate fresh (s.cache m) stack attr start arg a
      let s := s.setCache m o.cache
      if o.ret = 0 then s.addThread ((o.passed.attr attr).getD fresh).stacksize else s
  | .threadStackFloor m t a =>
    s.stack[t]?.map fun stack => s.setCache m (resolveFloor (s.cache m) stack a).cache

/-- The call of `resolveFloor` in a step: the module, the stack of the thread, and what it is answered. -/
def asks (s : Process) : Label → Option (ℕ × ℕ × SelfAnswers)
  | .foreign _ => none
  | .pthreadCreate m t _ _ _ a => s.stack[t]?.map fun stack => (m, stack, a.self)
  | .threadStackFloor m t a => s.stack[t]?.map fun stack => (m, stack, a)

/-- What `resolveFloor` returns in a step. -/
def floors (s : Process) (l : Label) : List ℕ :=
  (s.asks l).toList.map fun q => (resolveFloor (s.cache q.1) q.2.1 q.2.2).value

/-- Runs from the start of a process with a main thread of this stack size. -/
def Reaches (fresh : Attr) (main : ℕ) (ls : List Label) (s : Process) : Prop :=
  Lts.Run (Lts.Next (step fresh)) (init main) ls s

end Process

/-- The thread reads its stack size. -/
def SelfAnswers.reads (a : SelfAnswers) : Bool := a.init == 0 && a.get == 0 && a.size == 0

/-- The floor after a stack of this size: `0` when it is no stack, or when it cannot be read. -/
def floorAfter (stack : ℕ) (readable : Bool) : ℕ :=
  if readable then (if stack < pthreadStackMin then 0 else stack) else 0

/-- A module that has no floor yet asks on a thread that comes to the same floor as the main thread: on that one,
when it reads its stack size unless that cannot be read. -/
def AsksLikeMain (main : ℕ) (readable : Bool) (s : Process) (l : Process.Label) : Prop :=
  ∀ m stack a, s.asks l = some (m, stack, a) → s.cache m = unresolved →
    floorAfter stack a.reads = floorAfter main readable

instance (main : ℕ) (readable : Bool) (s : Process) (l : Process.Label) :
    Decidable (AsksLikeMain main readable s l) :=
  match h : s.asks l with
  | none => isTrue fun m stack a ha => by rw [h] at ha; cases ha
  | some (m, stack, a) =>
    decidable_of_iff (s.cache m = unresolved → floorAfter stack a.reads = floorAfter main readable)
      ⟨fun hq m' stack' a' ha => by rw [h] at ha; cases ha; exact hq, fun hq => hq m stack a h⟩

end OrbisCompat.ThreadStack
