import OrbisCompat.Jit.Equiv.Suballocator
import Mathlib.Order.Bounds.Basic

/-!
# The walk of `orbisJitFindFree`, granule by granule

`Describes query maps` says that the queries are answered from a memory map.  Then the search is exact:
it answers the least free range, or `NULL` when there is none (`Describes.findFree`).

`Truthful query mapped` says only that the return codes are right, and leaves the reported ends open.
The search then ends and answers a free range inside its window as long as no rounding can leave the
address space (`robust_iff`); the granule to stay clear of is the last one but one, since a cursor on
the last granule passes the bound test of the loop by wrapping.
-/

namespace OrbisCompat.Jit

variable {query : ℕ → ℕ → Option ℕ}

/-! ### What is asked of the kernel -/

/-- The memory map: ranges that start and end on granules, far enough below the top of the address
space for roundings. -/
structure MemoryMap (maps : Set Extent) : Prop where
  start_dvd : ∀ m ∈ maps, orbisJitGranule ∣ m.start
  stop_dvd : ∀ m ∈ maps, orbisJitGranule ∣ m.stop
  stop_le : ∀ m ∈ maps, m.stop + 2 * orbisJitGranule ≤ 2 ^ 64

/-- A query succeeds exactly for an address in a mapping, and then reports the end of that mapping. -/
structure Describes (query : ℕ → ℕ → Option ℕ) (maps : Set Extent) : Prop where
  free : ∀ k p, query k p = none ↔ ∀ m ∈ maps, p ∉ m
  stop : ∀ k p e, query k p = some e → ∃ m ∈ maps, p ∈ m ∧ m.stop = e

/-- A query succeeds exactly for a mapped address; the end it reports may be anything. -/
def Truthful (query : ℕ → ℕ → Option ℕ) (mapped : Set ℕ) : Prop :=
  ∀ k p, query k p = none ↔ p ∉ mapped

/-- The aligned addresses of free ranges inside `[lo, hi)`. -/
def freeRanges (maps : Set Extent) (lo hi len : ℕ) : Set ℕ :=
  {r | lo ≤ r ∧ orbisJitGranule ∣ r ∧ r + len ≤ hi ∧ ∀ m ∈ maps, ∀ x ∈ m, x ∉ (⟨r, len⟩ : Extent)}

/-- `orbis_jit_find_free` returns `r`, after any number of queries. -/
def FindFreeReturns (query : ℕ → ℕ → Option ℕ) (lo hi len r : ℕ) : Prop :=
  ∃ fuel, orbisJitFindFreeLoop query hi len fuel 0 (orbisJitGranuleUp lo) (orbisJitGranuleUp lo)
    = some r

/-! ### One round of the loop -/

section Round

variable {hi len fuel k p run : ℕ}

theorem findFreeLoop_stop (h : hi < p + 16384) (hp : p + 16384 < 2 ^ 64) :
    orbisJitFindFreeLoop query hi len (fuel + 1) k p run = some 0 := by
  unfold orbisJitFindFreeLoop orbisJitGranule
  rw [Word64.add_of_lt hp, if_neg (by omega)]

/-- A taken granule: the walk resumes past the end it reported, rounded up, or at the next granule. -/
theorem findFreeLoop_taken {e : ℕ} (h : p + 16384 ≤ hi) (hp : p + 16384 < 2 ^ 64)
    (hq : query k p = some e) : orbisJitFindFreeLoop query hi len (fuel + 1) k p run =
      orbisJitFindFreeLoop query hi len fuel (k + 1)
        (if e > p then orbisJitGranuleUp e else p + 16384)
        (if e > p then orbisJitGranuleUp e else p + 16384) := by
  conv_lhs => unfold orbisJitFindFreeLoop
  rw [show Word64.add p orbisJitGranule = p + 16384 from Word64.add_of_lt hp, if_pos h, hq]

/-- A free granule joins the run, which is the answer once it is long enough. -/
theorem findFreeLoop_free (h : p + 16384 ≤ hi) (hp : p + 16384 < 2 ^ 64) (hrun : run ≤ p)
    (hq : query k p = none) : orbisJitFindFreeLoop query hi len (fuel + 1) k p run =
      if p + 16384 - run ≥ len then some run
      else orbisJitFindFreeLoop query hi len fuel (k + 1) (p + 16384) run := by
  conv_lhs => unfold orbisJitFindFreeLoop
  rw [show Word64.add p orbisJitGranule = p + 16384 from Word64.add_of_lt hp, if_pos h, hq]
  dsimp only
  rw [Word64.sub_of_le (by omega) hp]

end Round

theorem orbisJitGranuleUp_of_dvd {e : ℕ} (hd : 16384 ∣ e) (he : e + 16384 < 2 ^ 64) :
    orbisJitGranuleUp e = e := by
  rw [orbisJitGranuleUp_eq]
  omega

/-! ### The search is exact -/

section Exact

variable {maps : Set Extent} {lo hi len : ℕ}

/-- Mappings are made of whole granules. -/
theorem MemoryMap.mem_granule (hm : MemoryMap maps) {m : Extent} (h : m ∈ maps) {x p : ℕ}
    (hp : 16384 ∣ p) (hx : p ≤ x) (hx' : x < p + 16384) : x ∈ m ↔ p ∈ m := by
  have hstart := hm.start_dvd m h
  have hstop := hm.stop_dvd m h
  unfold Extent.stop orbisJitGranule at *
  rw [Extent.mem_iff, Extent.mem_iff]
  omega

/-- **The invariant of the walk**: `run` starts a run of free granules that ends at `p` and is too short,
and no free range starts before it. -/
structure Walking (maps : Set Extent) (lo hi len p run : ℕ) : Prop where
  dvd : 16384 ∣ p
  dvd_run : 16384 ∣ run
  lo_le : lo ≤ run
  run_le : run ≤ p
  short : p < run + len
  free : ∀ m ∈ maps, ∀ x ∈ m, ¬(run ≤ x ∧ x < p)
  least : ∀ r ∈ freeRanges maps lo hi len, run ≤ r

namespace Walking

variable {p run : ℕ}

/-- At the end of the window there is no free range. -/
theorem stop (W : Walking maps lo hi len p run) (hlen : 16384 ∣ len) (hend : hi < p + 16384) :
    freeRanges maps lo hi len = ∅ := by
  refine Set.eq_empty_of_forall_notMem fun r hr => ?_
  have hrun := W.least r hr
  obtain ⟨-, hdr, hin, -⟩ := hr
  have h1 := W.dvd
  have h2 := W.short
  unfold orbisJitGranule at hdr
  omega

/-- Past a mapping that holds `p`: a free range that starts before its end would hold `p` or lie in the
mapping. -/
theorem taken (W : Walking maps lo hi len p run) (hm : MemoryMap maps) (hpos : 0 < len)
    (hlen : 16384 ∣ len) {m : Extent} (h : m ∈ maps) (hp : p ∈ m) :
    Walking maps lo hi len m.stop m.stop := by
  have hgt : p < m.stop := (Extent.mem_iff.mp hp).2
  have hle := W.run_le
  have hlo := W.lo_le
  refine ⟨hm.stop_dvd m h, hm.stop_dvd m h, by omega, le_rfl, by omega,
    fun _ _ _ _ hx => by omega, fun r hr => ?_⟩
  have hrun := W.least r hr
  obtain ⟨-, hdr, hin, hfree⟩ := hr
  have hshort := W.short
  have hdvd := W.dvd
  have hnp := hfree m h p hp
  rw [Extent.mem_iff] at hnp
  dsimp only at hnp
  unfold orbisJitGranule at hdr
  have hpr : p < r := by omega
  by_contra hlt
  have hrm : r ∈ m := by
    have h1 := (Extent.mem_iff.mp hp).1
    unfold Extent.stop at hlt
    exact Extent.mem_iff.mpr ⟨by omega, by omega⟩
  exact hfree m h r hrm (Extent.mem_iff.mpr ⟨le_rfl, Nat.lt_add_of_pos_right hpos⟩)

/-- Over a free granule: the run is the answer, or it goes on. -/
theorem advance (W : Walking maps lo hi len p run) (hm : MemoryMap maps) (hin : p + 16384 ≤ hi)
    (hp : ∀ m ∈ maps, p ∉ m) :
    if p + 16384 - run ≥ len then IsLeast (freeRanges maps lo hi len) run
    else Walking maps lo hi len (p + 16384) run := by
  have hfree : ∀ m ∈ maps, ∀ x ∈ m, ¬(run ≤ x ∧ x < p + 16384) := by
    rintro m h x hx ⟨hx1, hx2⟩
    by_cases hxp : x < p
    · exact W.free m h x hx ⟨hx1, hxp⟩
    · exact hp m h ((hm.mem_granule h W.dvd (not_lt.mp hxp) hx2).mp hx)
  have hrun := W.run_le
  have hdvd := W.dvd
  split_ifs with hge
  · refine ⟨⟨W.lo_le, W.dvd_run, by have := W.short; omega, fun m h x hx hxr => ?_⟩, W.least⟩
    have := Extent.mem_iff.mp hxr
    dsimp only at this
    have := W.short
    exact hfree m h x hx ⟨by omega, by omega⟩
  · exact ⟨by omega, W.dvd_run, W.lo_le, by omega, by omega, hfree, W.least⟩

end Walking

/-- **The walk** ends, at the least free range if there is one. -/
theorem Describes.findFreeLoop (hd : Describes query maps) (hm : MemoryMap maps) (hpos : 0 < len)
    (hlen : 16384 ∣ len) (hhi : hi + 2 * 16384 ≤ 2 ^ 64) {fuel k p run : ℕ}
    (W : Walking maps lo hi len p run) (hp : p + 2 * 16384 ≤ 2 ^ 64)
    (hfuel : hi < p + (fuel + 1) * 16384) :
    (∃ r, orbisJitFindFreeLoop query hi len (fuel + 1) k p run = some r ∧
        IsLeast (freeRanges maps lo hi len) r) ∨
      orbisJitFindFreeLoop query hi len (fuel + 1) k p run = some 0 ∧
        freeRanges maps lo hi len = ∅ := by
  induction fuel generalizing k p run with
  | zero => exact Or.inr ⟨findFreeLoop_stop (by omega) (by omega), W.stop hlen (by omega)⟩
  | succ fuel ih =>
    by_cases hin : p + 16384 ≤ hi
    · cases hq : query k p with
      | some e =>
        obtain ⟨m, hmem, hpm, rfl⟩ := hd.stop k p e hq
        have hstop := hm.stop_dvd m hmem
        have htop := hm.stop_le m hmem
        have hgt : m.stop > p := (Extent.mem_iff.mp hpm).2
        have hdvd := W.dvd
        unfold orbisJitGranule at hstop htop
        rw [findFreeLoop_taken hin (by omega) hq, if_pos hgt,
          orbisJitGranuleUp_of_dvd hstop (by omega)]
        exact ih (W.taken hm hpos hlen hmem hpm) htop (by omega)
      | none =>
        rw [findFreeLoop_free hin (by omega) W.run_le hq]
        have hnext := W.advance hm hin ((hd.free k p).mp hq)
        split_ifs at hnext ⊢ with hge
        · exact Or.inl ⟨run, rfl, hnext⟩
        · exact ih hnext (by omega) (by omega)
    · exact Or.inr ⟨findFreeLoop_stop (by omega) (by omega), W.stop hlen (by omega)⟩

/-- The search ends at the least free range, or at `NULL` when there is none. -/
theorem Describes.findFree (hd : Describes query maps) (hm : MemoryMap maps) (hpos : 0 < len)
    (hlen : 16384 ∣ len) (hle : lo ≤ hi) (hhi : hi + 2 * 16384 ≤ 2 ^ 64) :
    (∃ r, orbisJitFindFree query lo hi len = some r ∧ IsLeast (freeRanges maps lo hi len) r) ∨
      orbisJitFindFree query lo hi len = some 0 ∧ freeRanges maps lo hi len = ∅ := by
  have hup : orbisJitGranuleUp lo = (lo + 16383) / 16384 * 16384 := by
    rw [orbisJitGranuleUp_eq, Nat.mod_eq_of_lt (by omega)]
  have W : Walking maps lo hi len (orbisJitGranuleUp lo) (orbisJitGranuleUp lo) := by
    refine ⟨dvd_orbisJitGranuleUp lo, dvd_orbisJitGranuleUp lo, by omega, le_rfl, by omega,
      fun _ _ _ _ hx => by omega, fun r hr => ?_⟩
    obtain ⟨hlo, hdr, -⟩ := hr
    unfold orbisJitGranule at hdr
    omega
  have hfuel : hi < orbisJitGranuleUp lo + (2 ^ 50 + 1) * 16384 := by norm_num; omega
  exact hd.findFreeLoop hm hpos hlen hhi W (by omega) hfuel

/-- A range that is answered is unmapped from end to end. -/
theorem Describes.unmapped (hd : Describes query maps) (hm : MemoryMap maps) (hlen : 16384 ∣ len)
    (hhi : lo + len + 2 * 16384 ≤ 2 ^ 64)
    (hne : ∃ m ∈ maps, ∃ x ∈ m, x ∈ (⟨lo, len⟩ : Extent)) :
    orbisJitFindFree query lo (lo + len) len = some 0 := by
  obtain ⟨m, hmem, x, hx, hxl⟩ := hne
  have hxl' := Extent.mem_iff.mp hxl
  dsimp only at hxl'
  rcases hd.findFree hm (by omega) hlen (Nat.le_add_right lo len) hhi with ⟨r, -, ⟨hlo, -, hin, hfree⟩, -⟩ |
    ⟨h, -⟩
  · obtain rfl : r = lo := by omega
    exact absurd hxl (hfree m hmem x hx)
  · exact h

/-- **The address search is exact.**  Over a memory map, for every window and every positive number of
granules, it ends; an address it answers is the least aligned one of a free range inside the window, and
it answers `NULL` when there is none (or when the least one is address zero itself).  And
`orbis_jit_alloc_at` leaves everything as it is when any byte of its range is mapped. -/
theorem Describes.findFree_exact {pf : Platform} (hd : Describes pf.virtualQuery maps)
    (hm : MemoryMap maps) :
    (∀ lo hi len, lo ≤ hi → hi + 2 * orbisJitGranule ≤ 2 ^ 64 → 0 < len → orbisJitGranule ∣ len →
      (∃ r, orbisJitFindFree pf.virtualQuery lo hi len = some r) ∧
      (∀ r ≠ 0, orbisJitFindFree pf.virtualQuery lo hi len = some r ↔
        IsLeast (freeRanges maps lo hi len) r) ∧
      (orbisJitFindFree pf.virtualQuery lo hi len = some 0 ↔
        freeRanges maps lo hi len = ∅ ∨ IsLeast (freeRanges maps lo hi len) 0)) ∧
    ∀ s addr size, addr + orbisJitMapLen size + 2 * orbisJitGranule ≤ 2 ^ 64 →
      (∃ m ∈ maps, ∃ x ∈ m, x ∈ (⟨addr, orbisJitMapLen size⟩ : Extent)) →
      orbisJitAllocAt pf s addr size = some (s, 0) := by
  constructor
  · intro lo hi len hle hhi hpos hlen
    rcases hd.findFree hm hpos hlen hle hhi with ⟨r, hr, hleast⟩ | ⟨hr, hempty⟩ <;> rw [hr]
    · refine ⟨⟨r, rfl⟩, fun r' _ => ⟨fun h => Option.some.inj h ▸ hleast,
        fun h => congrArg some (hleast.unique h)⟩, fun h => Or.inr (Option.some.inj h ▸ hleast), ?_⟩
      rintro (hempty | hzero)
      · exact absurd hleast.1 (by rw [hempty]; exact Set.notMem_empty r)
      · exact congrArg some (hleast.unique hzero)
    · refine ⟨⟨0, rfl⟩, fun r' hr' => ⟨fun h => absurd (Option.some.inj h).symm hr', fun h => ?_⟩,
        fun _ => Or.inl hempty, fun _ => rfl⟩
      exact absurd h.1 (by rw [hempty]; exact Set.notMem_empty r')
  · intro s addr size hhi hne
    have hlen : 16384 ∣ orbisJitMapLen size := (orbisJitMapLen_spec size).1
    have hsearch := hd.unmapped hm hlen hhi hne
    have hadd : Word64.add addr (orbisJitMapLen size) = addr + orbisJitMapLen size :=
      Word64.add_of_lt (by unfold orbisJitGranule at hhi; omega)
    unfold orbisJitAllocAt
    dsimp only
    rw [hadd, hsearch]
    split_ifs <;> rfl

end Exact

/-- One mapping of one granule at the start of the window: the search passes over it. -/
theorem findFree_past_mapping :
    IsLeast (freeRanges {⟨0x10000, 0x4000⟩} 0x10000 0x20000 0x8000) 0x14000 := by
  let pf : Platform := { Platform.idle with
    virtualQuery := fun _ p => if 0x10000 ≤ p ∧ p < 0x14000 then some 0x14000 else none }
  have hd : Describes pf.virtualQuery {⟨0x10000, 0x4000⟩} := by
    constructor
    · intro k p
      simp [pf, Extent.mem_iff]
    · intro k p e h
      refine ⟨_, rfl, ?_⟩
      dsimp only [pf] at h
      split_ifs at h with hp
      exact ⟨Extent.mem_iff.mpr hp, Option.some.inj h⟩
  have hm : MemoryMap {⟨0x10000, 0x4000⟩} := by
    constructor <;> rintro m rfl <;> unfold orbisJitGranule <;> decide
  refine ((hd.findFree_exact hm).1 0x10000 0x20000 0x8000 (by decide) ?_ (by decide) ?_).2.1
    0x14000 (by decide) |>.mp (by decide +kernel)
  · unfold orbisJitGranule; decide
  · unfold orbisJitGranule; decide

/-- In an empty address space the least free range of a window that starts at zero is at address zero, which
is what `NULL` is. -/
theorem findFree_address_zero : Describes (fun _ _ => none) ∅ ∧ MemoryMap ∅ ∧
    orbisJitFindFree (fun _ _ => none) 0 0x4000 0x4000 = some 0 ∧
    0 ∈ freeRanges ∅ 0 0x4000 0x4000 := by
  refine ⟨⟨by simp, by simp⟩, ⟨by simp, by simp, by simp⟩, by decide +kernel, ?_⟩
  exact ⟨le_rfl, dvd_zero _, le_rfl, by simp⟩

/-! ### Ends that are misread -/

/-- What an address answered by the search promises. -/
def SafeRange (mapped : Set ℕ) (lo hi len r : ℕ) : Prop :=
  lo ≤ r ∧ r + len ≤ hi ∧ ∀ x, orbisJitGranule ∣ x → r ≤ x → x < r + len → x ∉ mapped

/-- With truthful return codes and ends up to `b`, the search of any window that ends at `hi` ends, and an
address it answers is that of a range inside the window with no mapped granule. -/
def Robust (hi b : ℕ) : Prop :=
  ∀ (query : ℕ → ℕ → Option ℕ) (mapped : Set ℕ) (lo len : ℕ), Truthful query mapped →
    (∀ k p e, query k p = some e → e ≤ b) → lo ≤ hi → len < 2 ^ 64 →
    (∃ r, FindFreeReturns query lo hi len r) ∧
      ∀ r, FindFreeReturns query lo hi len r → r ≠ 0 → SafeRange mapped lo hi len r

section Misread

variable {mapped : Set ℕ} {lo hi len b p run fuel k r : ℕ}

/-- **The invariant under misread ends**: the walk has not left the window downwards, and the granules of
the run are free. -/
structure Roaming (mapped : Set ℕ) (lo p run : ℕ) : Prop where
  dvd : 16384 ∣ p
  lo_le : lo ≤ run
  run_le : run ≤ p
  le : p + 2 * 16384 ≤ 2 ^ 64
  free : ∀ x, 16384 ∣ x → run ≤ x → x < p → x ∉ mapped

/-- A cursor that starts a new run. -/
theorem Roaming.fresh (hd : 16384 ∣ p) (hlo : lo ≤ p) (hle : p + 2 * 16384 ≤ 2 ^ 64) :
    Roaming mapped lo p p :=
  ⟨hd, hlo, le_rfl, hle, fun _ _ h1 h2 => absurd h2 (not_lt.mpr h1)⟩

/-- **One round**: the search is over, or the cursor has moved up by a granule at least. -/
theorem Roaming.round (R : Roaming mapped lo p run) (ht : Truthful query mapped)
    (hend : ∀ k p e, query k p = some e → e ≤ b) (hhi : hi + 2 * 16384 ≤ 2 ^ 64)
    (hb : b + 2 * 16384 ≤ 2 ^ 64) (len fuel k : ℕ) :
    orbisJitFindFreeLoop query hi len (fuel + 1) k p run = some 0 ∨
    (orbisJitFindFreeLoop query hi len (fuel + 1) k p run = some run ∧
      SafeRange mapped lo hi len run) ∨
    p + 16384 ≤ hi ∧ ∃ p' run', p + 16384 ≤ p' ∧ Roaming mapped lo p' run' ∧
      orbisJitFindFreeLoop query hi len (fuel + 1) k p run
        = orbisJitFindFreeLoop query hi len fuel (k + 1) p' run' := by
  obtain ⟨hd, hlo, hrun, hle, hfree⟩ := R
  by_cases hin : p + 16384 ≤ hi
  · right
    cases hq : query k p with
    | some e =>
      right
      rw [findFreeLoop_taken hin (by omega) hq]
      have he := hend k p e hq
      split_ifs with hgt
      · -- the reported end is rounded up below the last granule
        have hup : orbisJitGranuleUp e = (e + 16383) / 16384 * 16384 := by
          rw [orbisJitGranuleUp_eq, Nat.mod_eq_of_lt (by omega)]
        exact ⟨hin, _, _, by omega,
          .fresh (dvd_orbisJitGranuleUp e) (by omega) (by omega), rfl⟩
      · exact ⟨hin, _, _, le_rfl, .fresh (by omega) (by omega) (by omega), rfl⟩
    | none =>
      rw [findFreeLoop_free hin (by omega) hrun hq]
      have hfree' : ∀ x, 16384 ∣ x → run ≤ x → x < p + 16384 → x ∉ mapped := by
        intro x hx h1 h2
        by_cases hxp : x < p
        · exact hfree x hx h1 hxp
        · obtain rfl : x = p := by omega
          exact (ht k x).mp hq
      split_ifs with hge
      · exact Or.inl ⟨rfl, hlo, by omega, fun x hx h1 h2 => hfree' x hx h1 (by omega)⟩
      · exact Or.inr ⟨hin, _, _, le_rfl, ⟨by omega, hlo, by omega, by omega, hfree'⟩, rfl⟩
  · exact Or.inl (findFreeLoop_stop (by omega) (by omega))

/-- The walk ends. -/
theorem Roaming.ends (ht : Truthful query mapped) (hend : ∀ k p e, query k p = some e → e ≤ b)
    (hhi : hi + 2 * 16384 ≤ 2 ^ 64) (hb : b + 2 * 16384 ≤ 2 ^ 64)
    (R : Roaming mapped lo p run) (hfuel : hi < p + (fuel + 1) * 16384) (len : ℕ) :
    ∃ r, orbisJitFindFreeLoop query hi len (fuel + 1) k p run = some r := by
  induction fuel generalizing k p run with
  | zero =>
    rcases R.round ht hend hhi hb len 0 k with h | ⟨h, -⟩ | ⟨hin, -⟩
    · exact ⟨0, h⟩
    · exact ⟨run, h⟩
    · omega
  | succ fuel ih =>
    rcases R.round ht hend hhi hb len (fuel + 1) k with h | ⟨h, -⟩ | ⟨-, p', run', hp', R', h⟩
    · exact ⟨0, h⟩
    · exact ⟨run, h⟩
    · rw [h]
      exact ih R' (by omega)

/-- What the walk answers is safe. -/
theorem Roaming.safe (ht : Truthful query mapped) (hend : ∀ k p e, query k p = some e → e ≤ b)
    (hhi : hi + 2 * 16384 ≤ 2 ^ 64) (hb : b + 2 * 16384 ≤ 2 ^ 64)
    (R : Roaming mapped lo p run)
    (h : orbisJitFindFreeLoop query hi len fuel k p run = some r) (hr : r ≠ 0) :
    SafeRange mapped lo hi len r := by
  induction fuel generalizing k p run with
  | zero => cases h
  | succ fuel ih =>
    rcases R.round ht hend hhi hb len fuel k with h' | ⟨h', hsafe⟩ | ⟨-, p', run', -, R', h'⟩
    · rw [h'] at h
      exact absurd (Option.some.inj h).symm hr
    · rw [h'] at h
      rwa [← Option.some.inj h]
    · rw [h'] at h
      exact ih R' h

/-- In a window shorter than a granule nothing is asked. -/
theorem findFree_short_window (hhi : hi < 16384) (hle : lo ≤ hi) :
    FindFreeReturns query lo hi len r ↔ r = 0 := by
  have hstop : ∀ fuel, orbisJitFindFreeLoop query hi len (fuel + 1) 0 (orbisJitGranuleUp lo)
      (orbisJitGranuleUp lo) = some 0 := by
    intro fuel
    have hup : orbisJitGranuleUp lo = (lo + 16383) / 16384 * 16384 := by
      rw [orbisJitGranuleUp_eq, Nat.mod_eq_of_lt (by omega)]
    exact findFreeLoop_stop (by omega) (by omega)
  constructor
  · rintro ⟨fuel, h⟩
    cases fuel with
    | zero => cases h
    | succ fuel => exact Option.some.inj (h.symm.trans (hstop fuel))
  · rintro rfl
    exact ⟨1, hstop 0⟩

/-- On the last granule the bound test of the loop wraps and passes: a free one is answered, although it
lies past the end of every window. -/
theorem findFreeLoop_top (hq : query k (2 ^ 64 - 16384) = none) :
    orbisJitFindFreeLoop query hi 16384 (fuel + 1) k (2 ^ 64 - 16384) (2 ^ 64 - 16384)
      = some (2 ^ 64 - 16384) := by
  unfold orbisJitFindFreeLoop orbisJitGranule
  rw [show Word64.add (2 ^ 64 - 16384) 0x4000 = 0 from rfl, if_pos (Nat.zero_le _), hq]
  dsimp only
  rw [show Word64.sub 0 (2 ^ 64 - 16384) = 16384 from rfl, if_pos le_rfl]

theorem orbisJitGranuleUp_top : orbisJitGranuleUp (2 ^ 64 - 32767) = 2 ^ 64 - 16384 := by
  rw [orbisJitGranuleUp_eq]; norm_num

/-- A map with one free granule, the last one of the address space, and one answer for all others. -/
def topFree (e : ℕ) : ℕ → ℕ → Option ℕ := fun _ p => if p = 2 ^ 64 - 16384 then none else some e

/-- A search that answers the last granule is not robust. -/
theorem not_robust_of_top {e : ℕ} (lo : ℕ) (hhi : hi < 2 ^ 64) (he : e ≤ b) (hle : lo ≤ hi)
    (h : FindFreeReturns (topFree e) lo hi 16384 (2 ^ 64 - 16384)) : ¬Robust hi b := by
  intro hrob
  have ht : Truthful (topFree e) {p | p ≠ 2 ^ 64 - 16384} := by
    intro k p
    unfold topFree
    split_ifs with hp
    · exact iff_of_true rfl (not_not.mpr hp)
    · exact iff_of_false (by simp) (not_not.mpr hp)
  have hend : ∀ k p f, topFree e k p = some f → f ≤ b := by
    intro k p f hf
    unfold topFree at hf
    split_ifs at hf
    exact Option.some.inj hf ▸ he
  have hsafe := (hrob _ _ lo 16384 ht hend hle (by norm_num)).2 _ h (by norm_num)
  have hin := hsafe.2.1
  omega

/-- **When a misread end costs speed only.**  The search ends, and answers only free ranges of its window,
for every memory map, window up to `hi` and request and whatever ends up to `b` are reported, exactly
when neither `hi` nor `b` lies in the last two granules of the address space (or the window is too short
to hold a granule). -/
theorem robust_iff (hhi : hi < 2 ^ 64) (hb : b < 2 ^ 64) : Robust hi b ↔ hi < orbisJitGranule ∨
    hi + 2 * orbisJitGranule ≤ 2 ^ 64 ∧ b + 2 * orbisJitGranule ≤ 2 ^ 64 := by
  unfold orbisJitGranule
  constructor
  · intro hrob
    by_contra hcond
    rw [not_or, not_and_or] at hcond
    obtain ⟨hbig, hwin | hlate⟩ := hcond
    · -- the window reaches the last granule, so a search from there answers it
      refine not_robust_of_top (e := 0) (2 ^ 64 - 32767) hhi (Nat.zero_le b) (by omega) ?_ hrob
      refine ⟨1, ?_⟩
      rw [orbisJitGranuleUp_top]
      exact findFreeLoop_top (if_pos rfl)
    · -- an end in the last granule but one puts the cursor on the last
      refine not_robust_of_top (e := 2 ^ 64 - 32767) 0 hhi (by omega) (Nat.zero_le _) ?_ hrob
      refine ⟨2, ?_⟩
      have hzero : orbisJitGranuleUp 0 = 0 := by rw [orbisJitGranuleUp_eq]; norm_num
      rw [hzero, findFreeLoop_taken (by omega) (by norm_num) (if_neg (by norm_num)),
        if_pos (by norm_num), orbisJitGranuleUp_top]
      exact findFreeLoop_top (if_pos rfl)
  · rintro (hshort | ⟨hwin, hlate⟩) query mapped lo len ht hend hle -
    · refine ⟨⟨0, (findFree_short_window hshort hle).mpr rfl⟩, fun r hr hne => ?_⟩
      exact absurd ((findFree_short_window hshort hle).mp hr) hne
    · have hup : orbisJitGranuleUp lo = (lo + 16383) / 16384 * 16384 := by
        rw [orbisJitGranuleUp_eq, Nat.mod_eq_of_lt (by omega)]
      have R : Roaming mapped lo (orbisJitGranuleUp lo) (orbisJitGranuleUp lo) :=
        .fresh (dvd_orbisJitGranuleUp lo) (by omega) (by omega)
      have hfuel : hi < orbisJitGranuleUp lo + (2 ^ 50 + 1) * 16384 := by norm_num; omega
      obtain ⟨r, hr⟩ := R.ends ht hend hwin hlate hfuel len
      exact ⟨⟨r, _, hr⟩, fun r ⟨_, hr⟩ hne => R.safe ht hend hwin hlate hr hne⟩

end Misread

/-- Windows and ends in the lower half of the address space. -/
theorem robust_lower_half : Robust (2 ^ 47) (2 ^ 47) :=
  (robust_iff (by norm_num) (by norm_num)).mpr
    (Or.inr (by unfold orbisJitGranule; constructor <;> norm_num))

/-- A module at `0x400000`, another mapping at the start of the window above it, and ends that are read as
`-1`: the first one takes the cursor to address zero, from where it always comes back to the module. -/
theorem misread_never_returns : ∃ (query : ℕ → ℕ → Option ℕ) (mapped : Set ℕ),
    Truthful query mapped ∧ (∀ k p e, query k p = some e → e < 2 ^ 64) ∧
    ∀ r, ¬FindFreeReturns query 0x10400000 0x60400000 0x1000000 r := by
  let isMapped : ℕ → Prop := fun p =>
    0x400000 ≤ p ∧ p < 0x800000 ∨ 0x10400000 ≤ p ∧ p < 0x10800000
  let query : ℕ → ℕ → Option ℕ := fun _ p => if isMapped p then some (2 ^ 64 - 1) else none
  have htaken : ∀ {p}, isMapped p → ∀ k, query k p = some (2 ^ 64 - 1) := fun h _ => if_pos h
  have hfree : ∀ {p}, ¬isMapped p → ∀ k, query k p = none := fun h _ => if_neg h
  have hzero : orbisJitGranuleUp (2 ^ 64 - 1) = 0 := by rw [orbisJitGranuleUp_eq]; norm_num
  -- the cursor is somewhere between zero and the module, and the run starts at zero
  have hcycle : ∀ fuel k i, i ≤ 256 →
      orbisJitFindFreeLoop query 0x60400000 0x1000000 fuel k (i * 16384) 0 = none := by
    intro fuel
    induction fuel with
    | zero => exact fun _ _ _ => rfl
    | succ fuel ih =>
      intro k i hi
      by_cases hlast : i = 256
      · have hm : isMapped (i * 16384) := Or.inl ⟨by omega, by omega⟩
        rw [findFreeLoop_taken (by omega) (by omega) (htaken hm k), if_pos (by omega), hzero]
        exact ih (k + 1) 0 (Nat.zero_le _)
      · have hm : ¬isMapped (i * 16384) := by
          dsimp only [isMapped]
          omega
        rw [findFreeLoop_free (by omega) (by omega) (Nat.zero_le _) (hfree hm k),
          if_neg (by omega), show i * 16384 + 16384 = (i + 1) * 16384 by omega]
        exact ih (k + 1) (i + 1) (by omega)
  refine ⟨query, {p | isMapped p}, fun k p => ?_, fun k p e h => ?_, ?_⟩
  · by_cases hp : isMapped p
    · exact iff_of_false (by rw [htaken hp k]; simp) (not_not.mpr hp)
    · exact iff_of_true (hfree hp k) hp
  · by_cases hp : isMapped p
    · obtain rfl := Option.some.inj ((htaken hp k).symm.trans h)
      norm_num
    · rw [hfree hp k] at h
      cases h
  · rintro r ⟨fuel, h⟩
    have hup : orbisJitGranuleUp 0x10400000 = 0x10400000 := by
      rw [orbisJitGranuleUp_eq]; norm_num
    rw [hup] at h
    cases fuel with
    | zero => cases h
    | succ fuel =>
      have hm : isMapped 0x10400000 := Or.inr ⟨by norm_num, by norm_num⟩
      rw [findFreeLoop_taken (by norm_num) (by norm_num) (htaken hm 0), if_pos (by norm_num),
        hzero] at h
      have hstuck := hcycle fuel 1 0 (Nat.zero_le _)
      rw [Nat.zero_mul] at hstuck
      cases hstuck.symm.trans h

end OrbisCompat.Jit
