import OrbisCompat.Jit.Basic

/-!
# `src/orbis_jit.c`: the address search

`orbis_jit_find_free` walks granules, asking the kernel about each.  A granule that is taken answers
for its whole mapping, so the walk resumes past the end it reported; a run of free granules long
enough is the answer.

The walk visits at most `2 ^ 50` granules before it must have wrapped round the address space, so
`none` below is a walk that never ends and `some 0` is the `NULL` of one that found nothing.
-/

namespace OrbisCompat.Jit

/-- `end` rounded up to a granule. -/
def orbisJitGranuleUp (e : ℕ) : ℕ := Word64.alignUp e orbisJitGranule

/-- The loop of `orbis_jit_find_free`, with the number of queries made so far. -/
def orbisJitFindFreeLoop (query : ℕ → ℕ → Option ℕ) (hi len : ℕ) :
    ℕ → ℕ → ℕ → ℕ → Option ℕ
  | 0, _, _, _ => none
  | fuel + 1, k, p, run =>
    if Word64.add p orbisJitGranule ≤ hi then
      match query k p with
      | some e =>
        let p' := if e > p then orbisJitGranuleUp e else Word64.add p orbisJitGranule
        orbisJitFindFreeLoop query hi len fuel (k + 1) p' p'
      | none =>
        let p' := Word64.add p orbisJitGranule
        if Word64.sub p' run ≥ len then some run
        else orbisJitFindFreeLoop query hi len fuel (k + 1) p' run
    else some 0

/-- `orbis_jit_find_free`: the address found, `some 0` for `NULL`, `none` when it never returns. -/
def orbisJitFindFree (query : ℕ → ℕ → Option ℕ) (lo hi len : ℕ) : Option ℕ :=
  let p := orbisJitGranuleUp lo
  orbisJitFindFreeLoop query hi len (2 ^ 50 + 1) 0 p p

end OrbisCompat.Jit
