import OrbisCompat.Lib.Lts
import OrbisCompat.Mem.Basic

/-!
# `src/orbis_mem.cpp`: threads that allocate and take the census

Any number of threads call `operator new` and `memCensus`.  A step is one access to shared memory or one call out
of the file; between two steps of a thread any other thread may take its own.  The kernel and the C allocator
answer as they like.

Nothing calls `memCensusBaseline`, so what it stores is where a run starts from.
-/

namespace OrbisCompat.Mem

/-- Where a thread is. -/
inductive Pc
  /-- In neither function. -/
  | idle
  /-- In `noteRequest`, before the load and before the store. -/
  | noting (r : Request)
  | storing (r : Request)
  /-- Before the call of the C allocator. -/
  | allocating (r : Request)
  /-- In `announceOom`, before the `fetch_add`. -/
  | refused (r : Request)
  /-- In `flexAvailable`: before the query, before the store of `rc`, before the load of `flexLow`, in the loop. -/
  | querying (w : Purpose)
  | answered (w : Purpose) (rc v : ℕ)
  | loading (w : Purpose) (v : ℕ)
  | trying (w : Purpose) (v low : ℕ)
  /-- After it. -/
  | reporting (w : Purpose) (d : Locals) (todo : List Item)

/-- The statics of the file and the threads.  The fields after `log` are not in the file: how the calls of `operator new`
ended, the sizes asked for, the requests that were refused, in the order of the `fetch_add`s, those of them that got past
it, the answers of the kernel, and those of them whose threads are through the loop; all newest first. -/
structure State where
  flexBoot : ℕ
  flexLow : ℕ
  biggestRequest : ℕ
  flexQueryErr : ℕ
  oomAnnounced : ℕ
  pc : ℕ → Pc
  log : List Line
  results : List (Request × Outcome)
  sizes : List ℕ
  refusals : List Request
  announced : List Request
  queried : List ℕ
  settled : List ℕ

namespace State

/-- The statics as they are declared, or, when `memCensusBaseline` has stored an answer of the kernel, after it. -/
def start (baseline : Option ℕ) : State where
  flexBoot := baseline.getD 0
  flexLow := baseline.getD (2 ^ 64 - 1)
  biggestRequest := 0
  flexQueryErr := 0
  oomAnnounced := 0
  pc := fun _ => .idle
  log := []
  results := []
  sizes := []
  refusals := []
  announced := []
  queried := []
  settled := []

@[simps] def setPc (s : State) (t : ℕ) (pc : Pc) : State :=
  { s with pc := fun u => if u = t then pc else s.pc u }

/-- The call of the thread returns, or throws. -/
def finish (s : State) (t : ℕ) (r : Request) (o : Outcome) : State :=
  { s.setPc t .idle with results := (r, o) :: s.results }

/-- `flexAvailable` returns. -/
def answer (s : State) (t : ℕ) (w : Purpose) (flex : ℕ) : State :=
  s.setPc t (.reporting w { flex } w.items)

/-- The loop of `flexAvailable` ends. -/
def settle (s : State) (t : ℕ) (w : Purpose) (v : ℕ) : State :=
  { s.answer t w v with settled := v :: s.settled }

end State

/-- A step of a thread. -/
inductive Label
  /-- `operator new` is called. -/
  | new (t : ℕ) (r : Request)
  /-- `memCensus` is called. -/
  | memCensus (t : ℕ) (place : String)
  /-- The next step of `noteRequest`. -/
  | note (t : ℕ)
  /-- The C allocator answers. -/
  | alloc (t : ℕ) (a : Answer)
  | fetchAdd (t : ℕ)
  /-- The kernel answers `ogFlexibleAvailable`. -/
  | query (t rc v : ℕ)
  | storeErr (t : ℕ)
  | loadLow (t : ℕ)
  /-- One turn of the loop of `flexAvailable`, and whether its `compare_exchange_weak` fails for no reason. -/
  | turn (t : ℕ) (spurious : Bool)
  /-- The next item, with what the kernel answers if it asks it. -/
  | item (t rc sz total : ℕ)
  /-- The call returns. -/
  | done (t : ℕ)

/-- `noteRequest`. -/
def noteStep (s : State) (t : ℕ) : Pc → Option State
  | .noting r => some (s.setPc t (if r.size > s.biggestRequest then .storing r else .allocating r))
  | .storing r => some ({ s with biggestRequest := r.size }.setPc t (.allocating r))
  | _ => none

/-- The answer of the C allocator. -/
def allocStep (s : State) (t : ℕ) (r : Request) (a : Answer) : State :=
  if r.pointer a ≠ 0 then s.finish t r (.pointer (r.pointer a)) else s.setPc t (.refused r)

/-- `oomAnnounced.fetch_add(1)>=8`. -/
def fetchAddStep (s : State) (t : ℕ) (r : Request) : State :=
  let s' := { s with oomAnnounced := (s.oomAnnounced + 1) % 2 ^ 32, refusals := r :: s.refusals }
  if Word32.toInt s.oomAnnounced ≥ 8 then s'.finish t r r.refused
  else { s' with announced := r :: s'.announced }.setPc t (.querying (.refusal r))

/-- The end of `flexAvailable` without an answer, or its loop. -/
def storeErrStep (s : State) (t : ℕ) (w : Purpose) (rc v : ℕ) : State :=
  let s := { s with flexQueryErr := rc }
  if rc ≠ 0 then s.answer t w 0 else { s.setPc t (.loading w v) with queried := v :: s.queried }

/-- `v<low && !flexLow.compare_exchange_weak(low,v)`. -/
def turnStep (s : State) (t : ℕ) (w : Purpose) (v low : ℕ) (spurious : Bool) : State :=
  if v < low then
    if s.flexLow = low ∧ spurious = false then { s.settle t w v with flexLow := v }
    else s.setPc t (.trying w v s.flexLow)
  else s.settle t w v

/-- One item. -/
def itemStep (s : State) (t : ℕ) (w : Purpose) (d : Locals) (todo : List Item) (rc sz total : ℕ) : Item → State
  | .loadQueryErr => s.setPc t (.reporting w { d with flexRc := s.flexQueryErr } todo)
  | .loadBoot => s.setPc t (.reporting w { d with boot := s.flexBoot } todo)
  | .loadLow => s.setPc t (.reporting w { d with low := s.flexLow } todo)
  | .loadBiggest => s.setPc t (.reporting w { d with biggest := s.biggestRequest } todo)
  | .askDirect =>
    s.setPc t (.reporting w { d with dRc := rc, dAvail := if rc = 0 then sz else 0, dTotal := total } todo)
  | .print line => { s with log := line d :: s.log }.setPc t (.reporting w d todo)

/-- The end of `report` and of `announceOom`. -/
def doneStep (s : State) (t : ℕ) : Purpose → State
  | .census _ => s.setPc t .idle
  | .refusal r => s.finish t r r.refused

def step (s : State) : Label → Option State
  | .new t r =>
    match s.pc t with
    | .idle => some ({ s with sizes := r.size :: s.sizes }.setPc t (.noting r))
    | _ => none
  | .memCensus t place =>
    match s.pc t with
    | .idle => some (s.setPc t (.querying (.census place)))
    | _ => none
  | .note t => noteStep s t (s.pc t)
  | .alloc t a =>
    match s.pc t with
    | .allocating r => some (allocStep s t r a)
    | _ => none
  | .fetchAdd t =>
    match s.pc t with
    | .refused r => some (fetchAddStep s t r)
    | _ => none
  | .query t rc v =>
    match s.pc t with
    | .querying w => some (s.setPc t (.answered w rc v))
    | _ => none
  | .storeErr t =>
    match s.pc t with
    | .answered w rc v => some (storeErrStep s t w rc v)
    | _ => none
  | .loadLow t =>
    match s.pc t with
    | .loading w v => some (s.setPc t (.trying w v s.flexLow))
    | _ => none
  | .turn t spurious =>
    match s.pc t with
    | .trying w v low => some (turnStep s t w v low spurious)
    | _ => none
  | .item t rc sz total =>
    match s.pc t with
    | .reporting w d (i :: todo) => some (itemStep s t w d todo rc sz total i)
    | _ => none
  | .done t =>
    match s.pc t with
    | .reporting w _ [] => some (doneStep s t w)
    | _ => none

/-- Runs from the start. -/
def Reaches (baseline : Option ℕ) (ls : List Label) (s : State) : Prop :=
  Lts.Run (Lts.Next step) (State.start baseline) ls s

end OrbisCompat.Mem
