import OrbisCompat.Jit.Basic

/-!
# `src/orbis_jit.c`: the free list of one arena

`orbis_jit_take` and `orbis_jit_give`, index by index and `memmove` by `memmove`.
-/

namespace OrbisCompat.Jit

/-- `at + len` of a span, as pointer arithmetic computes it. -/
def orbisJitSpanEnd (s : OrbisJitSpan) : ℕ := Word64.add s.start s.len

/-- `orbis_jit_take`: the first span that is long enough, removed when it fits exactly and cut at
the front otherwise. -/
def orbisJitTake (a : OrbisJitArena) (len : ℕ) : Option (OrbisJitArena × ℕ) :=
  (a.span.firstIdx fun s => !decide (s.len < len)).map fun i =>
    let s := a.span.slot i
    if s.len = len then
      ({ a with span := (a.span.memmove i (i + 1) (a.nspans - i - 1)).setLen (a.nspans - 1) },
        s.start)
    else
      ({ a with span := a.span.set i ⟨Word64.add s.start len, Word64.sub s.len len⟩ }, s.start)

/-- The index at which `orbis_jit_give` inserts: past every span that starts below `at`. -/
def orbisJitGiveIdx (a : OrbisJitArena) (at' : ℕ) : ℕ :=
  (a.span.firstIdx fun s => !decide (s.start < at')).getD a.nspans

/-- The forward half of the coalescing in `orbis_jit_give`, at index `i`. -/
def orbisJitJoinNext (t : CTable OrbisJitSpan) (i : ℕ) : CTable OrbisJitSpan :=
  if i + 1 < t.n ∧ orbisJitSpanEnd (t.slot i) = (t.slot (i + 1)).start then
    let t' := t.set i ⟨(t.slot i).start, Word64.add (t.slot i).len (t.slot (i + 1)).len⟩
    (t'.memmove (i + 1) (i + 2) (t.n - i - 2)).setLen (t.n - 1)
  else t

/-- The backward half: the same join, one index down, and its own `memmove`. -/
def orbisJitJoinPrev (t : CTable OrbisJitSpan) (i : ℕ) : CTable OrbisJitSpan :=
  if 0 < i ∧ orbisJitSpanEnd (t.slot (i - 1)) = (t.slot i).start then
    let t' := t.set (i - 1)
      ⟨(t.slot (i - 1)).start, Word64.add (t.slot (i - 1)).len (t.slot i).len⟩
    (t'.memmove i (i + 1) (t.n - i - 1)).setLen (t.n - 1)
  else t

/-- `orbis_jit_give`: a full list drops the block; otherwise it is inserted and coalesced. -/
def orbisJitGive (a : OrbisJitArena) (at' len : ℕ) : OrbisJitArena :=
  let i := orbisJitGiveIdx a at'
  if a.nspans ≥ orbisJitMaxSpans then a
  else
    let t := ((a.span.memmove (i + 1) i (a.nspans - i)).set i ⟨at', len⟩).setLen (a.nspans + 1)
    { a with span := orbisJitJoinPrev (orbisJitJoinNext t i) i }

end OrbisCompat.Jit
