import OrbisCompat.AbortReport.Basic
import OrbisCompat.Lib.Lts

/-!
# `src/orbis_abort_report.c`: reports that meet

Any number of threads call `orbis_report`, and what a report calls for its copy on file may call it again: `orbis_env_get`, `fopen`
and `fputs` reach interposers.  A step is one access to `s_in_report` or one call out of the file.
-/

namespace OrbisCompat.AbortReport

/-- How far a report with its line is. -/
inductive Frame
  /-- Before `sceKernelDebugOutText`. -/
  | starting (line : List UInt8)
  /-- Before the exchange. -/
  | printed (line : List UInt8)
  /-- In `orbis_env_get` or `fopen`. -/
  | opening (line : List UInt8)
  /-- In `fputs`, `fflush` or `fclose`. -/
  | writing (path line : List UInt8)
  /-- Before the store. -/
  | clearing
  deriving DecidableEq, Repr

/-- The report makes its copy on file. -/
def Frame.copying : Frame → Bool
  | starting _ | printed _ => false
  | opening _ | writing _ _ | clearing => true

/-- What a thread that is in its reports, innermost first, runs is code that may call `orbis_report`. -/
def mayCall : List Frame → Bool
  | [] | .opening _ :: _ | .writing _ _ :: _ => true
  | _ => false

/-- `s_in_report`, the reports each thread is in, innermost first, and what has been written, newest first.  The last field is not in
the file: the lines that each thread has called `orbis_report` for, newest first. -/
structure State where
  inReport : Bool
  stack : ℕ → List Frame
  klog : List (ℕ × List UInt8)
  file : List (List UInt8 × List UInt8)
  calls : ℕ → List (List UInt8)

namespace State

def init : State := ⟨false, fun _ => [], [], [], fun _ => []⟩

@[simps] def setStack (s : State) (t : ℕ) (fs : List Frame) : State :=
  { s with stack := fun u => if u = t then fs else s.stack u }

end State

inductive Label
  | call (t : ℕ) (line : List UInt8)
  | klog (t : ℕ)
  | exchange (t : ℕ)
  /-- What `orbis_env_get` returns, and whether `fopen` opens the file. -/
  | fopen (t : ℕ) (env : Option (List UInt8)) (opened : Bool)
  /-- Whether the line gets into the file. -/
  | fputs (t : ℕ) (written : Bool)
  | store (t : ℕ)
  deriving DecidableEq, Repr

/-- The thread of a step. -/
def Label.thread : Label → ℕ
  | call t _ | klog t | exchange t | fopen t _ _ | fputs t _ | store t => t

def step (s : State) : Label → Option State
  | .call t line =>
    if mayCall (s.stack t) then
      some ({ s with calls := fun u => if u = t then line :: s.calls t else s.calls u }.setStack t (.starting line :: s.stack t))
    else none
  | .klog t =>
    match s.stack t with
    | .starting line :: fs => some ({ s with klog := (t, line) :: s.klog }.setStack t (.printed line :: fs))
    | _ => none
  | .exchange t =>
    match s.stack t with
    | .printed line :: fs =>
      if s.inReport then some (s.setStack t fs) else some ({ s with inReport := true }.setStack t (.opening line :: fs))
    | _ => none
  | .fopen t env opened =>
    match s.stack t with
    | .opening line :: fs =>
      if opened then some (s.setStack t (.writing (logPath env) line :: fs)) else some (s.setStack t (.clearing :: fs))
    | _ => none
  | .fputs t written =>
    match s.stack t with
    | .writing path line :: fs =>
      if written then some ({ s with file := (path, line) :: s.file }.setStack t (.clearing :: fs))
      else some (s.setStack t (.clearing :: fs))
    | _ => none
  | .store t =>
    match s.stack t with
    | .clearing :: fs => some ({ s with inReport := false }.setStack t fs)
    | _ => none

/-- Runs from the start of a process. -/
def Reaches (ls : List Label) (s : State) : Prop := Lts.Run (Lts.Next step) State.init ls s

end OrbisCompat.AbortReport
