import OrbisCompat.Jit.Loose

/-!
# `src/orbis_jit.c`: promotion of pages the caller owns

`orbis_jit_protect` rounds the range outwards to granules, and keeps a table of the ranges it has
decided: `s_promoted[ORBIS_JIT_MAX_PROMOTED]` with its count `s_promoted_n`, a `CTable`.

A call leaves a `ProtectCall` behind: what it was asked, what it answered, and what it did to the
pages on the way.  A `ProtectWorld` is the state of the file with the calls made so far.

`ProtectWorld.promote` is the system of these calls alone: for any ranges, also ones that wrap, as long
as there is a free entry in the table.
-/

namespace OrbisCompat.Jit

/-- `ORBIS_JIT_MAX_PROMOTED`. -/
def orbisJitMaxPromoted : ℕ := 16

/-- An entry of `s_promoted`: a range of granules, and its verdict. -/
structure Promoted where
  base : ℕ
  end_ : ℕ
  ok : Bool
  deriving DecidableEq, Repr

/-- The entry widened to the union with a range that it overlaps. -/
def Promoted.widen (e : Promoted) (base end_ : ℕ) : Promoted where
  base := if base < e.base then base else e.base
  end_ := if end_ > e.end_ then end_ else e.end_
  ok := e.ok

/-- The state of the file with the promotion table. -/
structure ProtectState where
  st : State
  sPromoted : CTable Promoted

/-- `.bss`, before the first call. -/
def ProtectState.init (mem : FlatMem) : ProtectState := ⟨.init mem, ⟨0, fun _ => ⟨0, 0, false⟩⟩⟩

/-- One call of `orbis_jit_protect`. -/
structure ProtectCall where
  addr : ℕ
  len : ℕ
  /-- What it returned. -/
  ok : Bool
  /-- The range of a `sceKernelMprotect` that was granted. -/
  mprotected : Option Extent
  /-- Where it wrote the stub. -/
  stub : Option ℕ
  /-- Whether it reported that the table is full. -/
  full : Bool

/-- `orbis_jit_verify`: write the stub and call it. -/
def orbisJitVerify (pf : Platform) (mem : FlatMem) (at' : ℕ) : FlatMem × Bool :=
  (mem.store at' orbisJitStub, decide (pf.callStub at' = 0x00c0ffee))

/-- The end of `orbis_jit_protect`: the verdict of the module, and a new entry, or a report that there
is no room for one. -/
def orbisJitSettle (s : ProtectState) (base end_ : ℕ) (ok : Bool) : ProtectState × Bool :=
  let st := { s.st with sState := orbisJitRecord s.st.sState ok }
  if s.sPromoted.n < orbisJitMaxPromoted then
    (⟨st, (s.sPromoted.set s.sPromoted.n ⟨base, end_, ok⟩).setLen (s.sPromoted.n + 1)⟩, false)
  else (⟨st, s.sPromoted⟩, true)

/-- `orbis_jit_protect`. -/
def orbisJitProtect (pf : Platform) (s : ProtectState) (addr len : ℕ) :
    ProtectState × ProtectCall :=
  let base := addr &&& Word64.not (orbisJitGranule - 1)
  let end_ := Word64.alignUp (Word64.add addr len) orbisJitGranule
  match s.sPromoted.firstIdx fun e => decide (base ≥ e.base) && decide (end_ ≤ e.end_) with
  | some i => (s, ⟨addr, len, (s.sPromoted.slot i).ok, none, none, false⟩)
  | none =>
    let overlap := s.sPromoted.firstIdx fun e => decide (base < e.end_) && decide (end_ > e.base)
    if pf.mprotect base (Word64.sub end_ base) = false then
      let (s', full) := orbisJitSettle s base end_ false
      (s', ⟨addr, len, false, none, none, full⟩)
    else
      match overlap with
      | some i =>
        let e := s.sPromoted.slot i
        ({ s with sPromoted := s.sPromoted.set i (e.widen base end_) },
          ⟨addr, len, e.ok, some ⟨base, Word64.sub end_ base⟩, none, false⟩)
      | none =>
        let (mem, ok) := orbisJitVerify pf s.st.mem addr
        let (s', full) := orbisJitSettle { s with st := { s.st with mem := mem } } base end_ ok
        (s', ⟨addr, len, ok, some ⟨base, Word64.sub end_ base⟩, some addr, full⟩)

/-- `orbis_jit_state`. -/
def orbisJitState (s : ProtectState) : ℤ := s.st.sState

/-- The granules that meet `[addr, addr + len)`: the range rounded outwards. -/
def granulesOf (addr len : ℕ) : Set ℕ :=
  {g | g * orbisJitGranule < addr + len ∧ addr < (g + 1) * orbisJitGranule}

def ProtectCall.granules (c : ProtectCall) : Set ℕ := granulesOf c.addr c.len

/-- The call has made this granule executable. -/
def ProtectCall.Covers (c : ProtectCall) (g : ℕ) : Prop :=
  ∃ e ∈ c.mprotected, Extent.Within ⟨g * orbisJitGranule, orbisJitGranule⟩ e

structure ProtectWorld where
  s : ProtectState
  /-- The calls of `orbis_jit_protect` so far, the latest first. -/
  log : List ProtectCall

/-- A call of `orbis_jit_protect`, or anything else that happens to the file. -/
inductive ProtectLabel
  | protect (addr len : ℕ)
  | call (c : Call)
  deriving DecidableEq, Repr

/-- Ranges are at least as long as the stub, and do not wrap when they are rounded outwards. -/
def ProperRange (addr len : ℕ) : Prop :=
  orbisJitStub.length ≤ len ∧ addr + len + orbisJitGranule ≤ 2 ^ 64

inductive ProtectStep (anchor : ℕ) : ProtectWorld → ProtectLabel → ProtectWorld → Prop
  | protect {w : ProtectWorld} {addr len : ℕ} (pf : Platform) (hrange : ProperRange addr len) :
      ProtectStep anchor w (.protect addr len)
        ⟨(orbisJitProtect pf w.s addr len).1, (orbisJitProtect pf w.s addr len).2 :: w.log⟩
  | call {w : ProtectWorld} {c : Call} {v v' : LooseWorld} (hv : v.st = w.s.st)
      (h : LooseStep anchor v c v') :
      ProtectStep anchor w (.call c) { w with s := { w.s with st := v'.st } }

/-- Runs from the first call on. -/
def ProtectReaches (anchor : ℕ) (mem : FlatMem) (cs : List ProtectLabel) (w : ProtectWorld) : Prop :=
  Lts.Run (ProtectStep anchor) ⟨.init mem, []⟩ cs w

/-! ### Calls of `orbis_jit_protect` alone -/

/-- The range as the code works with it, rounded outwards: its base. -/
def orbisJitRoundBase (addr : ℕ) : ℕ := addr &&& Word64.not (orbisJitGranule - 1)

/-- And its end. -/
def orbisJitRoundEnd (addr len : ℕ) : ℕ := Word64.alignUp (Word64.add addr len) orbisJitGranule

/-- The index of the entry that answers for a range: the first that contains it. -/
def orbisJitAnswering (s : ProtectState) (addr len : ℕ) : Option ℕ :=
  s.sPromoted.firstIdx fun e =>
    decide (orbisJitRoundBase addr ≥ e.base) && decide (orbisJitRoundEnd addr len ≤ e.end_)

/-- The index of the first entry that overlaps a range. -/
def orbisJitOverlap (s : ProtectState) (addr len : ℕ) : Option ℕ :=
  s.sPromoted.firstIdx fun e =>
    decide (orbisJitRoundBase addr < e.end_) && decide (orbisJitRoundEnd addr len > e.base)

/-- A call, with what the platform answers while it runs. -/
structure Promotion where
  pf : Platform
  addr : ℕ
  len : ℕ

/-- Whether `sceKernelMprotect` grants the range. -/
def Promotion.granted (r : Promotion) : Bool :=
  r.pf.mprotect (orbisJitRoundBase r.addr)
    (Word64.sub (orbisJitRoundEnd r.addr r.len) (orbisJitRoundBase r.addr))

/-- An entry widened by the range of the call. -/
def Promotion.extend (r : Promotion) (e : Promoted) : Promoted :=
  e.widen (orbisJitRoundBase r.addr) (orbisJitRoundEnd r.addr r.len)

/-- The index of the entry that a call widens: it overlaps the range, which is in no entry, and the
kernel grants it. -/
def orbisJitWidens (s : ProtectState) (r : Promotion) : Option ℕ :=
  if orbisJitAnswering s r.addr r.len = none ∧ r.granted = true then
    orbisJitOverlap s r.addr r.len
  else none

/-- One call, as long as fewer than `ORBIS_JIT_MAX_PROMOTED` entries are in use. -/
def ProtectWorld.promote (w : ProtectWorld) (r : Promotion) : Option ProtectWorld :=
  if w.s.sPromoted.n < orbisJitMaxPromoted then
    some ⟨(orbisJitProtect r.pf w.s r.addr r.len).1,
      (orbisJitProtect r.pf w.s r.addr r.len).2 :: w.log⟩
  else none

/-- The rounded range of a call lies in an entry. -/
def ProtectCall.Inside (c : ProtectCall) (e : Promoted) : Prop :=
  e.base ≤ orbisJitRoundBase c.addr ∧ orbisJitRoundEnd c.addr c.len ≤ e.end_

/-- Calling again for any range asked about gives the same verdict, whatever the platform answers, and
writes nothing. -/
def ProtectWorld.Repeats (w : ProtectWorld) : Prop :=
  ∀ c ∈ w.log, ∀ pf, (orbisJitProtect pf w.s c.addr c.len).2.ok = c.ok ∧
    (orbisJitProtect pf w.s c.addr c.len).2.stub = none ∧
    (orbisJitProtect pf w.s c.addr c.len).1.st.mem = w.s.st.mem

/-- When the call widens an entry, every range asked about that lies in the widened entry was given the
verdict of that entry, or lies in an entry in front of it. -/
def ProtectWorld.Agrees (w : ProtectWorld) (r : Promotion) : Prop :=
  ∀ i, orbisJitWidens w.s r = some i →
    ∀ c ∈ w.log, c.Inside (r.extend (w.s.sPromoted.slot i)) →
      c.ok = (w.s.sPromoted.slot i).ok ∨ ∃ k < i, c.Inside (w.s.sPromoted.slot k)

end OrbisCompat.Jit
