import OrbisCompat.Jit.Equiv.Suballocator

/-!
# Blocks within rel32 reach of the module

A request with `ORBIS_JIT_NEAR_TEXT` is served from an arena that `orbis_jit_near_module` accepts, or
from a new one that the address search placed.  For an anchor of at least `ORBIS_JIT_MODULE_SPAN` both
are sound: neither `anchor - ORBIS_JIT_MODULE_SPAN` nor the end of the span wraps, and the search stays
inside its windows (`inReach_of_near`, `Grown.inReach`).

Below that the start of the span wraps to the top of the address space, the smaller of the two starts
is the arena's, and `orbis_jit_near_module` measures the length of the arena instead of its distance
(`orbisJitNearModule_low`).  `honoursNear_iff` puts the two halves together.
-/

namespace OrbisCompat.Jit

open Extent

/-- Every address of `[p, p + size)` is less than 2 GiB away from every address of the module. -/
def InReach (anchor p size : ℕ) : Prop :=
  ∀ x, p ≤ x → x < p + size →
    ∀ y, anchor - orbisJitModuleSpan ≤ y → y < anchor + orbisJitModuleSpan →
      x < y + orbisJitReach ∧ y < x + orbisJitReach

/-- Less than 2 GiB from the lowest to the highest address is enough. -/
theorem inReach_of_span {anchor p size : ℕ} (lo hi : ℕ) (hlo : lo ≤ anchor - orbisJitModuleSpan)
    (hlo' : lo ≤ p) (hhi : anchor + orbisJitModuleSpan ≤ hi) (hhi' : p + size ≤ hi)
    (hspan : hi < lo + orbisJitReach) : InReach anchor p size := by
  intro x hx hx' y hy hy'
  omega

/-! ### Anchors with room below -/

section Sound

variable {anchor base size p n : ℕ}

/-- `orbis_jit_near_module` measures from the lowest to the highest address. -/
theorem orbisJitNearModule_iff (hanchor : orbisJitModuleSpan ≤ anchor) (hlt : anchor < userEnd)
    (huser : base + size ≤ userEnd) : orbisJitNearModule anchor base size = true ↔
      max (anchor + orbisJitModuleSpan) (base + size)
        < min (anchor - orbisJitModuleSpan) base + orbisJitReach := by
  unfold userEnd at hlt huser
  have hle : min (anchor - orbisJitModuleSpan) base
      ≤ max (anchor + orbisJitModuleSpan) (base + size) := by omega
  have hmax : max (anchor + orbisJitModuleSpan) (base + size) < 2 ^ 64 := by
    unfold orbisJitModuleSpan
    omega
  have hsub : Word64.sub (max (anchor + orbisJitModuleSpan) (base + size))
      (min (anchor - orbisJitModuleSpan) base) = max (anchor + orbisJitModuleSpan) (base + size)
        - min (anchor - orbisJitModuleSpan) base :=
    Word64.sub_of_le hle hmax
  have hfrom : Word64.sub anchor orbisJitModuleSpan = anchor - orbisJitModuleSpan :=
    Word64.sub_of_le hanchor (by omega)
  have hto : Word64.add (anchor - orbisJitModuleSpan) (2 * orbisJitModuleSpan)
      = anchor + orbisJitModuleSpan := by
    rw [Word64.add_of_lt (by unfold orbisJitModuleSpan at *; omega)]
    omega
  have hlo : (if anchor - orbisJitModuleSpan < base then anchor - orbisJitModuleSpan else base)
      = min (anchor - orbisJitModuleSpan) base := by
    split_ifs <;> omega
  have hhi : (if anchor + orbisJitModuleSpan > base + size then anchor + orbisJitModuleSpan
      else base + size) = max (anchor + orbisJitModuleSpan) (base + size) := by
    split_ifs <;> omega
  unfold orbisJitNearModule orbisJitReachable
  rw [hfrom, hto, Word64.add_of_lt (a := base) (by omega)]
  dsimp only
  rw [hlo, hhi, hsub, decide_eq_true_iff]
  omega

/-- `orbis_jit_near_module` is right about arenas of the user half. -/
theorem inReach_of_near (hanchor : orbisJitModuleSpan ≤ anchor) (hlt : anchor < userEnd)
    (huser : base + size ≤ userEnd) (hnear : orbisJitNearModule anchor base size = true)
    (hw : Within ⟨p, n⟩ ⟨base, size⟩) : InReach anchor p n := by
  obtain ⟨hw1, hw2⟩ := hw
  dsimp only [stop] at hw1 hw2
  have hspan := (orbisJitNearModule_iff hanchor hlt huser).mp hnear
  exact inReach_of_span _ _ (Nat.min_le_left _ _) ((Nat.min_le_right _ _).trans hw1)
    (Nat.le_max_left _ _) (hw2.trans (Nat.le_max_right _ _)) hspan

/-- The address search stays inside the window above the module, or inside the one below. -/
theorem orbisJitPlace_window {pf : Platform} {arenas : List OrbisJitArena} {len flags at' : ℕ}
    (hpf : pf.Documented arenas) (hanchor : orbisJitModuleSpan ≤ anchor) (hlt : anchor < userEnd)
    (hlen : 16384 ∣ len) (hpos : 0 < len) (hfit : at' + len ≤ userEnd)
    (hnear : flags &&& orbisJitNearText ≠ 0)
    (h : orbisJitPlace anchor pf len flags = some (some at')) :
    anchor + orbisJitModuleSpan ≤ at' ∧ at' + len ≤ anchor + orbisJitWindow ∨
      anchor ≤ at' + orbisJitWindow ∧ at' + len + orbisJitModuleSpan ≤ anchor := by
  unfold userEnd at hlt hfit
  have hwin : orbisJitWindow < 2 ^ 31 := by
    unfold orbisJitWindow orbisJitReach orbisJitModuleSpan; omega
  have hspan : orbisJitModuleSpan < 2 ^ 31 := by unfold orbisJitModuleSpan; omega
  rcases orbisJitPlace_cases h with ⟨-, hfar⟩ | ⟨h0, h | h⟩
  · exact absurd hfar hnear
  · rw [Word64.add_of_lt (by omega), Word64.add_of_lt (by omega)] at h
    obtain ⟨hge, -⟩ := orbisJitFindFree_mem (by omega) (by omega) hpf.query_end h h0
    obtain ⟨-, hstop, -⟩ := orbisJitFindFree_unmapped hlen (by omega) h h0
    have := hstop hpos
    omega
  · rw [Word64.sub_of_le hanchor (by omega)] at h
    obtain ⟨-, hstop, -⟩ := orbisJitFindFree_unmapped hlen (by omega) h h0
    have := hstop hpos
    -- below 1.5 GiB the window starts past the top, and an answer is near wherever it is
    by_cases hw : orbisJitWindow ≤ anchor
    · rw [Word64.sub_of_le hw (by omega)] at h
      obtain ⟨hge, -⟩ := orbisJitFindFree_mem (by omega) (by omega) hpf.query_end h h0
      omega
    · omega

/-- A new arena is where the search placed it. -/
theorem Grown.inReach {pf : Platform} {arenas : List OrbisJitArena} {atleast flags : ℕ}
    {a : OrbisJitArena} (hg : Grown anchor pf atleast flags a) (hpf : pf.Documented arenas)
    (hgood : GoodArena a) (hanchor : orbisJitModuleSpan ≤ anchor) (hlt : anchor < userEnd)
    (hnear : flags &&& orbisJitNearText ≠ 0) (hw : Within ⟨p, n⟩ a.extent) :
    InReach anchor p n := by
  obtain ⟨at', hplace, hat⟩ := hg.placed
  obtain ⟨hw1, hw2⟩ := hw
  rw [OrbisJitArena.extent_start] at hw1
  rw [OrbisJitArena.extent_stop] at hw2
  dsimp only [stop] at hw1 hw2
  obtain rfl : a.base = at' := by
    rcases orbisJitPlace_cases hplace with ⟨-, hfar⟩ | ⟨h0, -⟩
    · exact absurd hfar hnear
    · exact hat.resolve_left h0
  have hwin := orbisJitPlace_window hpf hanchor hlt hgood.size_dvd hgood.size_pos hgood.user hnear
    hplace
  -- module and window together are shorter than the reach
  have hwindow : orbisJitModuleSpan ≤ orbisJitWindow := by decide
  have hreach : orbisJitWindow + orbisJitModuleSpan < orbisJitReach := by decide
  rcases hwin with ⟨h1, h2⟩ | ⟨h1, h2⟩
  · exact inReach_of_span (anchor - orbisJitModuleSpan) (anchor + orbisJitWindow) le_rfl
      (by omega) (by omega) (by omega) (by omega)
  · exact inReach_of_span (anchor - orbisJitWindow) (anchor + orbisJitModuleSpan)
      (by omega) (by omega) le_rfl (by omega) (by omega)

/-- **Requests that are honoured.**  Above the module span, a block of a size that does not wrap is
in reach of the whole module. -/
theorem Reaches.inReach {anchor : ℕ} {mem : FlatMem} {cs : List Call} {w : World}
    (h : Reaches anchor (Call.AllocAtMost orbisJitMaxSize) mem cs w) {pf : Platform}
    (hpf : pf.Documented w.st.arenas) {size flags p : ℕ} {s : State}
    (hanchor : orbisJitModuleSpan ≤ anchor) (hlt : anchor < userEnd) (hsize : size ≤ orbisJitMaxSize)
    (hnear : flags &&& orbisJitNearText ≠ 0)
    (halloc : orbisJitAlloc anchor pf w.st size flags = some (s, p)) (hp : p ≠ 0) :
    InReach anchor p size := by
  obtain ⟨hlen, -, -, -⟩ := orbisJitBlockLen_spec hsize
  rcases orbisJitAlloc_cases h.ok hpf halloc with ⟨h0, -⟩ | ⟨t, i, ⟨t', q⟩, L, hi, -, hsrc, htake, hr⟩
  · exact absurd h0 hp
  have hgood : GoodArena (t.sArena.slot i) := L.good _ (CTable.mem_toList.mpr ⟨i, hi, rfl⟩)
  obtain ⟨⟨hw1, hw2⟩, -⟩ := takeAt_within hgood htake
  -- the payload is the block without its header unit
  have hw : Within ⟨p, size⟩ (t.sArena.slot i).extent := by
    obtain ⟨-, rfl⟩ := Prod.mk.inj hr
    have huser := hgood.user
    unfold userEnd at huser
    rw [OrbisJitArena.extent_stop] at hw2
    dsimp only [stop] at hw1 hw2
    have hadd : Word64.add q orbisJitAlign = q + 64 := Word64.add_of_lt (by
      unfold orbisJitAlign; omega)
    rw [hadd]
    exact ⟨hw1.trans (Nat.le_add_right _ _), by
      rw [OrbisJitArena.extent_stop]
      dsimp only [stop]
      omega⟩
  rcases hsrc with hserves | hgrown
  · refine inReach_of_near hanchor hlt hgood.user ?_ hw
    unfold orbisJitServes at hserves
    simpa [hnear] using (Bool.and_eq_true _ _ |>.mp hserves).2
  · exact hgrown.inReach hpf hgood hanchor hlt hnear hw

end Sound

/-! ### Anchors below the module span -/

section Exact

variable {anchor base : ℕ}

/-- Below the span every arena shorter than 2 GiB passes for a near one, wherever it is. -/
theorem orbisJitNearModule_low {size : ℕ} (hanchor : anchor < orbisJitModuleSpan)
    (huser : base + size ≤ userEnd) (hsize : size < orbisJitReach) :
    orbisJitNearModule anchor base size = true := by
  unfold orbisJitModuleSpan at hanchor
  unfold userEnd at huser
  -- the start of the span wraps to the top, and its end wraps back
  have hfrom : Word64.sub anchor orbisJitModuleSpan = anchor + 2 ^ 64 - 2 ^ 28 := by
    unfold Word64.sub orbisJitModuleSpan
    omega
  have hto : Word64.add (anchor + 2 ^ 64 - 2 ^ 28) (2 * orbisJitModuleSpan) = anchor + 2 ^ 28 := by
    unfold Word64.add orbisJitModuleSpan
    omega
  unfold orbisJitNearModule orbisJitReachable
  rw [hfrom, hto, Word64.add_of_lt (a := base) (by omega), if_neg (by omega)]
  dsimp only
  unfold orbisJitReach at *
  refine decide_eq_true ?_
  split_ifs with hend
  · rw [Word64.sub_of_le (by omega) (by omega)]
    omega
  · rw [Word64.sub_of_le (by omega) (by omega)]
    omega

/-- A console that grants one arena of 16 MiB, at `base`. -/
def Platform.grants (base : ℕ) : Platform where
  arenaMb := none
  virtualQuery := fun _ _ => none
  allocateDirectMemory := fun len => if len = 0 then none else some 0
  mapNamedDirectMemory := fun at' len => if at' = 0 ∧ len = 0x1000000 then some base else none
  mprotect := fun _ _ => true
  callStub := fun _ => 0x00c0ffee

/-- The same console afterwards, with nothing more to give. -/
def Platform.taken (base : ℕ) : Platform where
  arenaMb := none
  virtualQuery := fun _ x => if base ≤ x ∧ x < base + 0x1000000 then some (base + 0x1000000) else none
  allocateDirectMemory := fun _ => none
  mapNamedDirectMemory := fun _ _ => none
  mprotect := fun _ _ => false
  callStub := fun _ => 0

/-- The table holds one arena of 16 MiB at `base`, with one free span. -/
structure OneArena (base : ℕ) (e : Extent) (s : State) : Prop where
  count : s.sArenas = 1
  base_eq : (s.sArena.slot 0).base = base
  size_eq : (s.sArena.slot 0).size = 0x1000000
  shared : (s.sArena.slot 0).dedicated = false
  spans : (s.sArena.slot 0).nspans = 1
  span : (s.sArena.slot 0).span.slot 0 = e

/-- Its span is cut at the front. -/
theorem OneArena.takeAt {e : Extent} {s : State} (h : OneArena base e s) (len : ℕ)
    (hlen : len < e.len) (hfit : e.stop < 2 ^ 64) :
    (∃ t, s.takeAt 0 len = some (t, e.start) ∧ OneArena base ⟨e.start + len, e.len - len⟩ t) ∧
      (orbisJitTake (s.sArena.slot 0) len).isSome = true := by
  unfold stop at hfit
  have hn : (s.sArena.slot 0).span.n = 1 := h.spans
  have hspan := h.span
  have hi : ((s.sArena.slot 0).span.firstIdx fun s => !decide (s.len < len)) = some 0 :=
    CTable.firstIdx_eq_some.mpr ⟨by omega, by rw [hspan]; simp; omega, by simp⟩
  have htake : orbisJitTake (s.sArena.slot 0) len = some ({ s.sArena.slot 0 with
      span := (s.sArena.slot 0).span.set 0 ⟨e.start + len, e.len - len⟩ }, e.start) := by
    unfold orbisJitTake
    rw [hi, Option.map_some]
    dsimp only
    rw [hspan, if_neg (by omega), Word64.add_of_lt (by omega), Word64.sub_of_le (by omega) (by omega)]
  have htakeAt : s.takeAt 0 len = some ({ s with sArena := s.sArena.set 0 { s.sArena.slot 0 with
      span := (s.sArena.slot 0).span.set 0 ⟨e.start + len, e.len - len⟩ } }, e.start) := by
    unfold State.takeAt
    rw [htake]
    rfl
  refine ⟨⟨_, htakeAt, ?_⟩, by rw [htake]; rfl⟩
  constructor
  · exact h.count
  all_goals simp only [CTable.set_slot_self]
  · exact h.base_eq
  · exact h.size_eq
  · exact h.shared
  · exact h.spans

/-- The first arena of a console that grants one. -/
theorem oneArena_grow (anchor : ℕ) (mem : FlatMem) (hbase : 0 < base) :
    ∃ s, orbisJitGrow anchor (.grants base) (State.init mem) 128 0 = some (s, true) ∧
      OneArena base ⟨base, 0x1000000⟩ s := by
  have hsize : orbisJitArenaSize (Platform.grants base).arenaMb 128 = 0x1000000 := by
    show orbisJitArenaSize none 128 = _
    decide
  have hplace : orbisJitPlace anchor (.grants base) 0x1000000 0 = some (some 0) := rfl
  have hmap : ∃ t, orbisJitMap (.grants base) (State.init mem) 0 0x1000000
      = (t, some (base, 0x1000000, 0)) ∧ t.sArena = (State.init mem).sArena := by
    simp [orbisJitMap, Platform.grants, Nat.ne_of_gt hbase]
  obtain ⟨t, hmap, ht⟩ := hmap
  have hroom : ¬ (State.init mem).sArenas ≥ orbisJitMaxArenas := by
    show ¬ 8 ≤ 0
    norm_num
  unfold orbisJitGrow
  rw [if_neg hroom]
  dsimp only
  rw [hsize, hplace, Option.map_some]
  dsimp only
  rw [hmap]
  refine ⟨_, rfl, ?_⟩
  have hn : t.sArenas = 0 := by unfold State.sArenas; rw [ht]; rfl
  have hslot : (t.sArena.set t.sArenas (orbisJitFresh base 0x1000000 0)).slot 0
      = orbisJitFresh base 0x1000000 0 := by rw [hn, CTable.set_slot_self]
  exact ⟨congrArg (· + 1) hn, congrArg OrbisJitArena.base hslot, congrArg OrbisJitArena.size hslot,
    congrArg OrbisJitArena.dedicated hslot, congrArg OrbisJitArena.nspans hslot,
    congrArg (fun a => a.span.slot 0) hslot⟩

theorem oneArena_alloc (anchor : ℕ) (mem : FlatMem) (hbase : 0 < base) (huser : base + 0x1000000 ≤ userEnd) :
    ∃ s, orbisJitAlloc anchor (.grants base) (State.init mem) 1 0 = some (s, base + 64) ∧
      OneArena base ⟨base + 128, 0x1000000 - 128⟩ s := by
  unfold userEnd at huser
  have hlen : orbisJitBlockLen 1 = 128 := by decide
  obtain ⟨t, hgrow, ht⟩ := oneArena_grow anchor mem hbase
  obtain ⟨⟨u, htake, hu⟩, -⟩ := ht.takeAt 128 (by norm_num) (by unfold stop; dsimp only; omega)
  refine ⟨{ u with mem := u.mem.store64 base 128 }, ?_, hu.count, hu.base_eq, hu.size_eq, hu.shared,
    hu.spans, hu.span⟩
  unfold orbisJitAlloc
  rw [hlen]
  show (orbisJitGrow anchor (.grants base) (State.init mem) 128 0).map _ = _
  rw [hgrow, Option.map_some]
  dsimp only
  rw [ht.count, htake]
  show some (orbisJitHeader u base 128) = _
  unfold orbisJitHeader
  rw [show Word64.add base orbisJitAlign = base + 64 from
    Word64.add_of_lt (by unfold orbisJitAlign; omega)]

/-- A request that the arena serves gets its block from there, whatever the platform says. -/
theorem OneArena.alloc {e : Extent} {s : State} (h : OneArena base e s) (pf : Platform) (size : ℕ)
    (hnear : orbisJitNearModule anchor base 0x1000000 = true) (hlen : orbisJitBlockLen size < e.len)
    (hfit : e.stop + 64 < 2 ^ 64) :
    ∃ t, orbisJitAlloc anchor pf s size orbisJitNearText = some (t, e.start + 64) := by
  unfold stop at hfit
  obtain ⟨⟨u, htake, -⟩, hsome⟩ := h.takeAt _ hlen (by unfold stop; omega)
  have hserves : orbisJitServes anchor orbisJitNearText (s.sArena.slot 0) = true := by
    unfold orbisJitServes
    rw [h.shared, h.base_eq, h.size_eq, hnear]
    rfl
  have hscan : orbisJitScan anchor s (orbisJitBlockLen size) orbisJitNearText = some (u, e.start) := by
    unfold orbisJitScan
    have hi : (s.sArena.firstIdx fun a => orbisJitServes anchor orbisJitNearText a &&
        (orbisJitTake a (orbisJitBlockLen size)).isSome) = some 0 :=
      CTable.firstIdx_eq_some.mpr ⟨by have := h.count; unfold State.sArenas at this; omega,
        by rw [hserves, hsome]; rfl, by simp⟩
    rw [hi]
    exact htake
  unfold orbisJitAlloc
  dsimp only
  rw [hscan]
  dsimp only
  unfold orbisJitHeader
  rw [show Word64.add e.start orbisJitAlign = e.start + 64 from
    Word64.add_of_lt (by unfold orbisJitAlign; omega)]
  exact ⟨_, rfl⟩

/-! ### Which requests are honoured -/

/-- `ORBIS_JIT_NEAR_TEXT` is honoured for requests of up to `n` bytes: from every table, and whatever
the kernel has mapped, what is returned is in reach of the module. -/
def HonoursNear (anchor n : ℕ) : Prop :=
  ∀ mem cs w, Reaches anchor (Call.AllocAtMost orbisJitMaxSize) mem cs w →
    ∀ pf : Platform, pf.Documented w.st.arenas →
      ∀ size flags s p, size ≤ n → flags &&& orbisJitNearText ≠ 0 →
        orbisJitAlloc anchor pf w.st size flags = some (s, p) → p ≠ 0 → InReach anchor p size

theorem Platform.grants_documented (hbase : 0 < base) (hdvd : 16384 ∣ base)
    (huser : base + 0x1000000 ≤ userEnd) : (Platform.grants base).Documented [] where
  query_mapped := by simp
  query_end := by simp [grants]
  allocate_zero := rfl
  map_user := by
    intro at' len got h
    unfold grants at h
    dsimp only at h
    split_ifs at h with hc
    obtain rfl := Option.some.inj h
    rw [hc.2]
    exact ⟨hbase, hdvd, huser⟩
  map_fresh := by simp

theorem Platform.taken_documented {a : OrbisJitArena} (ha : a.extent = ⟨base, 0x1000000⟩)
    (huser : base + 0x1000000 ≤ userEnd) : (Platform.taken base).Documented [a] where
  query_mapped := by
    rintro k x ⟨b, hb, hx⟩
    obtain rfl := List.mem_singleton.mp hb
    rw [ha, mem_iff] at hx
    show (if _ then some _ else none) ≠ none
    rw [if_pos hx]
    simp
  query_end := by
    intro k x e h
    unfold taken at h
    dsimp only at h
    split_ifs at h
    obtain rfl := Option.some.inj h
    exact huser
  allocate_zero := rfl
  map_user := by simp [taken]
  map_fresh := by simp [taken]

/-- A request that fits into an arena taken for another one, at an address that passes for near. -/
theorem exists_served (size : ℕ) (hbase : 0 < base) (hdvd : 16384 ∣ base)
    (huser : base + 0x1000000 ≤ userEnd)
    (hnear : orbisJitNearModule anchor base 0x1000000 = true) (hlen : orbisJitBlockLen size ≤ 128) :
    ∃ w pf s, Reaches anchor (Call.AllocAtMost orbisJitMaxSize) (fun _ => 0) [.alloc 1 0] w ∧
      Platform.Documented pf w.st.arenas ∧
      orbisJitAlloc anchor pf w.st size orbisJitNearText = some (s, base + 192) := by
  obtain ⟨s, halloc, hs⟩ := oneArena_alloc anchor (fun _ => 0) hbase huser
  have hstep : Step anchor (World.init fun _ => 0) (.alloc 1 0) _ :=
    .alloc (.grants base) (Platform.grants_documented hbase hdvd huser) (by norm_num) halloc
  have hrun : Reaches anchor (Call.AllocAtMost orbisJitMaxSize) (fun _ => 0) [.alloc 1 0] _ :=
    .cons ⟨show 1 ≤ orbisJitMaxSize by decide, hstep⟩ (.nil _)
  obtain ⟨t, hres⟩ := hs.alloc (.taken base) size hnear (by dsimp only; omega) (by
    unfold userEnd at huser
    unfold stop
    dsimp only
    omega)
  have harenas : s.arenas = [s.sArena.slot 0] := by
    have hn : s.sArena.n = 1 := hs.count
    unfold State.arenas CTable.toList
    rw [hn]
    rfl
  refine ⟨_, .taken base, t, hrun, ?_, hres⟩
  show (Platform.taken base).Documented s.arenas
  rw [harenas]
  refine Platform.taken_documented ?_ huser
  unfold OrbisJitArena.extent
  rw [hs.base_eq, hs.size_eq]

/-- There is room for an arena beside every module. -/
theorem exists_near (hanchor : orbisJitModuleSpan ≤ anchor) (hlt : anchor < userEnd) :
    ∃ base, 0 < base ∧ 16384 ∣ base ∧ base + 0x1000000 ≤ userEnd ∧
      orbisJitNearModule anchor base 0x1000000 = true := by
  unfold orbisJitModuleSpan at hanchor
  unfold userEnd at hlt
  by_cases hlow : anchor < 2 ^ 46
  · refine ⟨anchor / 16384 * 16384 + 2 ^ 28, by omega, by omega, by unfold userEnd; omega, ?_⟩
    rw [orbisJitNearModule_iff hanchor hlt (by unfold userEnd; omega)]
    unfold orbisJitModuleSpan orbisJitReach
    omega
  · refine ⟨anchor / 16384 * 16384 - 2 ^ 29, by omega, by omega, by unfold userEnd; omega, ?_⟩
    rw [orbisJitNearModule_iff hanchor hlt (by unfold userEnd; omega)]
    unfold orbisJitModuleSpan orbisJitReach
    omega

/-- **Which requests are honoured.**  `ORBIS_JIT_NEAR_TEXT` is honoured for the requests of up to `n`
bytes if and only if the module is anchored at `ORBIS_JIT_MODULE_SPAN` or above and no block length up
to `n` bytes wraps. -/
theorem honoursNear_iff {n : ℕ} (hlt : anchor < userEnd) (hn : 1 ≤ n) (hn' : n < 2 ^ 64) :
    HonoursNear anchor n ↔ orbisJitModuleSpan ≤ anchor ∧ n ≤ orbisJitMaxSize := by
  constructor
  · intro h
    have hanchor : orbisJitModuleSpan ≤ anchor := by
      by_contra hlow
      -- an arena at 8 GiB passes for near
      have huser : 0x200000000 + 0x1000000 ≤ userEnd := by decide
      have hnear := orbisJitNearModule_low (Nat.not_le.mp hlow) huser (by decide)
      obtain ⟨w, pf, s, hrun, hpf, halloc⟩ := exists_served 1 (by norm_num) (by norm_num) huser
        hnear (by decide)
      have hreach := h _ _ w hrun pf hpf 1 _ s _ hn (by decide) halloc (by norm_num)
      have := (hreach (0x200000000 + 192) le_rfl (by omega) anchor (by omega) (by
        unfold orbisJitModuleSpan; omega)).1
      unfold orbisJitReach orbisJitModuleSpan at *
      omega
    refine ⟨hanchor, ?_⟩
    by_contra hbig
    -- the block of `n` bytes is one unit of an arena beside the module
    obtain ⟨base, hbase, hdvd, huser, hnear⟩ := exists_near hanchor hlt
    have hlen := orbisJitBlockLen_wrap (Nat.not_le.mp hbig) hn'
    obtain ⟨w, pf, s, hrun, hpf, halloc⟩ := exists_served n hbase hdvd huser hnear
      (hlen.trans (by norm_num))
    have hreach := h _ _ w hrun pf hpf n _ s _ le_rfl (by decide) halloc (by omega)
    have := (hreach (base + 192 + 2 ^ 63) (by omega) (by
      unfold orbisJitMaxSize at hbig; omega) anchor (by omega) (by
      unfold orbisJitModuleSpan; omega)).1
    unfold orbisJitReach userEnd at *
    omega
  · rintro ⟨hanchor, hmax⟩ mem cs w hrun pf hpf size flags s p hsize hnear halloc hp
    exact hrun.inReach hpf hanchor hlt (hsize.trans hmax) hnear halloc hp

end Exact

/-- A module at 8 GiB gets what it asks for. -/
theorem honoursNear_high : HonoursNear 0x200000000 (2 ^ 31) :=
  (honoursNear_iff (by decide) (by decide) (by decide)).mpr (by decide)

/-- A module at 4 MiB, on a console that grants an arena at 8 GiB: the first request takes it, and the
second, which must be near the module, is served from it. -/
theorem not_honoursNear_low : ∃ w pf s, Reaches 0x400000 (Call.AllocAtMost orbisJitMaxSize)
      (fun _ => 0) [.alloc 1 0] w ∧ Platform.Documented pf w.st.arenas ∧
    orbisJitAlloc 0x400000 pf w.st 64 orbisJitNearText = some (s, 0x2000000c0) ∧
    ¬ InReach 0x400000 0x2000000c0 64 := by
  have hnear : orbisJitNearModule 0x400000 0x200000000 0x1000000 = true :=
    orbisJitNearModule_low (by decide) (by decide) (by decide)
  obtain ⟨w, pf, s, hrun, hpf, halloc⟩ :=
    exists_served 64 (by norm_num) (by norm_num) (by decide) hnear (by decide)
  refine ⟨w, pf, s, hrun, hpf, halloc, fun hreach => ?_⟩
  exact absurd (hreach 0x2000000c0 (by decide) (by decide) 0x400000 (by decide) (by decide)).1
    (by decide)

end OrbisCompat.Jit
