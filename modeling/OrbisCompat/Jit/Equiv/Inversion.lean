import OrbisCompat.Jit.System

/-!
# What each function of `orbis_jit.c` can do

One lemma for each function that changes the table or asks the kernel for memory: everything that
it can leave behind, with the answers of the platform that lead there.  The invariants of the file
are proved from these and do not look at the functions again.
-/

namespace OrbisCompat.Jit

variable {anchor : ℕ} {pf : Platform} {s s' : State}

/-! ### Mapping -/

/-- What a granted mapping is: `len` bytes, at the address insisted on when there was one. -/
structure Granted (pf : Platform) (at' len base phys : ℕ) : Prop where
  allocated : pf.allocateDirectMemory len = some phys
  mapped : pf.mapNamedDirectMemory at' len = some base
  placed : at' = 0 ∨ base = at'

/-- The kernel grants no empty mapping, and none outside the user half. -/
theorem Granted.spec {arenas : List OrbisJitArena} {at' len base phys : ℕ}
    (h : Granted pf at' len base phys) (hpf : pf.Documented arenas) :
    0 < len ∧ 0 < base ∧ 16384 ∣ base ∧ base + len ≤ userEnd := by
  refine ⟨?_, hpf.map_user at' len base h.mapped⟩
  rcases Nat.eq_zero_or_pos len with rfl | hpos
  · have := h.allocated
    rw [hpf.allocate_zero] at this
    cases this
  · exact hpos

/-- **`orbis_jit_map`** leaves the table alone.  It writes at most the stub, to where the mapping
landed.  When it fails the kernel holds what it held before, and when it succeeds the allocation and
the mapping more. -/
theorem orbisJitMap_cases {arenas : List OrbisJitArena} {at' len : ℕ} {r : Option (ℕ × ℕ × ℕ)}
    (hpf : pf.Documented arenas) (h : orbisJitMap pf s at' len = (s', r)) :
    s'.sArena = s.sArena ∧
    (s'.mem = s.mem ∨ ∃ base phys, Granted pf at' len base phys ∧
      s'.mem = s.mem.store base orbisJitStub) ∧
    (r = none ∧ s'.kernel = s.kernel ∨ ∃ base phys, r = some (base, len, phys) ∧
      Granted pf at' len base phys ∧
      s'.kernel = (s.kernel.allocateDirectMemory phys len).mapDirectMemory base len) := by
  unfold orbisJitMap at h
  cases hal : pf.allocateDirectMemory len with
  | none =>
    rw [hal] at h
    obtain ⟨rfl, rfl⟩ := Prod.mk.inj h
    exact ⟨rfl, Or.inl rfl, Or.inl ⟨rfl, rfl⟩⟩
  | some phys =>
    rw [hal] at h
    dsimp only at h
    cases hmap : pf.mapNamedDirectMemory at' len with
    | none =>
      rw [hmap] at h
      obtain ⟨rfl, rfl⟩ := Prod.mk.inj h
      exact ⟨rfl, Or.inl rfl, Or.inl ⟨rfl, by simp⟩⟩
    | some got =>
      have hgot := (hpf.map_user at' len got hmap).1
      rw [hmap] at h
      dsimp only at h
      split_ifs at h with h0 hat hprot hstub
      · omega
      · obtain ⟨rfl, rfl⟩ := Prod.mk.inj h
        exact ⟨rfl, Or.inl rfl, Or.inl ⟨rfl, by simp⟩⟩
      · obtain ⟨rfl, rfl⟩ := Prod.mk.inj h
        exact ⟨rfl, Or.inl rfl, Or.inl ⟨rfl, by simp⟩⟩
      all_goals
        have hplaced : at' = 0 ∨ got = at' := by by_cases h0 : at' = 0 <;> simp_all
        obtain ⟨rfl, rfl⟩ := Prod.mk.inj h
      · exact ⟨rfl, Or.inr ⟨got, phys, ⟨hal, hmap, hplaced⟩, rfl⟩, Or.inl ⟨rfl, by simp⟩⟩
      · exact ⟨rfl, Or.inr ⟨got, phys, ⟨hal, hmap, hplaced⟩, rfl⟩,
          Or.inr ⟨got, phys, rfl, ⟨hal, hmap, hplaced⟩, rfl⟩⟩

/-- Without `ORBIS_JIT_NEAR_TEXT` the kernel chooses; with it the address is found above the module,
or below it. -/
theorem orbisJitPlace_cases {len flags at' : ℕ}
    (h : orbisJitPlace anchor pf len flags = some (some at')) :
    at' = 0 ∧ flags &&& orbisJitNearText = 0 ∨ at' ≠ 0 ∧
      (orbisJitFindFree pf.virtualQuery (Word64.add anchor orbisJitModuleSpan)
        (Word64.add anchor orbisJitWindow) len = some at' ∨
      orbisJitFindFree pf.virtualQuery (Word64.sub anchor orbisJitWindow)
        (Word64.sub anchor orbisJitModuleSpan) len = some at') := by
  unfold orbisJitPlace at h
  split_ifs at h with hnear
  · obtain ⟨above, ha, h⟩ := Option.bind_eq_some_iff.mp h
    split_ifs at h with h0
    · obtain rfl : above = at' := by simpa using h
      exact Or.inr ⟨h0, Or.inl ha⟩
    · obtain ⟨below, hb, h⟩ := Option.bind_eq_some_iff.mp h
      split_ifs at h with h0'
      · obtain rfl : below = at' := by simpa using h
        exact Or.inr ⟨h0', Or.inr hb⟩
      · simp at h
  · exact Or.inl ⟨by simpa using h.symm, not_not.mp hnear⟩

/-- **`orbis_jit_grow`** gives up before it asks for memory, or after; or it adds a free arena. -/
theorem orbisJitGrow_cases {atleast flags : ℕ} {grown : Bool}
    (h : orbisJitGrow anchor pf s atleast flags = some (s', grown)) :
    grown = false ∧ s' = s ∨
    s.sArenas < orbisJitMaxArenas ∧ ∃ at' s₁ r,
      orbisJitPlace anchor pf (orbisJitArenaSize pf.arenaMb atleast) flags = some (some at') ∧
      orbisJitMap pf s at' (orbisJitArenaSize pf.arenaMb atleast) = (s₁, r) ∧
      (grown = false ∧ r = none ∧ s' = s₁ ∨ grown = true ∧ ∃ base size phys,
        r = some (base, size, phys) ∧ s' = { s₁ with sArena :=
          (s₁.sArena.set s₁.sArenas (orbisJitFresh base size phys)).setLen (s₁.sArenas + 1) }) := by
  unfold orbisJitGrow at h
  split_ifs at h with hfull
  · obtain ⟨rfl, rfl⟩ : s = s' ∧ false = grown := by simpa using h
    exact Or.inl ⟨rfl, rfl⟩
  · obtain ⟨place, hplace, h⟩ := Option.map_eq_some_iff.mp h
    cases place with
    | none =>
      obtain ⟨rfl, rfl⟩ := Prod.mk.inj h
      exact Or.inl ⟨rfl, rfl⟩
    | some at' =>
      dsimp only at h
      rcases hm : orbisJitMap pf s at' (orbisJitArenaSize pf.arenaMb atleast) with ⟨s₁, r⟩
      refine Or.inr ⟨Nat.not_le.mp hfull, at', s₁, r, hplace, hm, ?_⟩
      rw [hm] at h
      match r, h with
      | none, h =>
        obtain ⟨rfl, rfl⟩ := Prod.mk.inj h
        exact Or.inl ⟨rfl, rfl, rfl⟩
      | some (base, size, phys), h =>
        obtain ⟨rfl, rfl⟩ := Prod.mk.inj h
        exact Or.inr ⟨rfl, base, size, phys, rfl, rfl⟩

/-! ### Taking from an arena -/

/-- Taking a block changes the free list of one arena and nothing else. -/
theorem takeAt_fields {i len p : ℕ} (h : s.takeAt i len = some (s', p)) :
    ∃ t, s' = { s with sArena := s.sArena.set i { s.sArena.slot i with span := t } } := by
  obtain ⟨⟨a', q⟩, htake, hres⟩ := Option.map_eq_some_iff.mp h
  obtain ⟨rfl, rfl⟩ := Prod.mk.inj hres
  obtain ⟨j, -, hj⟩ := Option.map_eq_some_iff.mp htake
  dsimp only at hj
  split_ifs at hj <;> (obtain ⟨rfl, -⟩ := Prod.mk.inj hj; exact ⟨_, rfl⟩)

/-- The loop of `orbis_jit_alloc` takes from an arena that serves the request. -/
theorem orbisJitScan_eq_some {len flags : ℕ} {r : State × ℕ}
    (h : orbisJitScan anchor s len flags = some r) :
    ∃ i < s.sArenas, orbisJitServes anchor flags (s.sArena.slot i) = true ∧
      s.takeAt i len = some r := by
  obtain ⟨i, hi, htake⟩ := Option.bind_eq_some_iff.mp h
  obtain ⟨hin, hboth, -⟩ := CTable.firstIdx_eq_some.mp hi
  exact ⟨i, hin, (Bool.and_eq_true _ _ |>.mp hboth).1, htake⟩

theorem dedicated_of_serves {flags : ℕ} {a : OrbisJitArena}
    (h : orbisJitServes anchor flags a = true) : a.dedicated = false := by
  unfold orbisJitServes at h
  simp only [Bool.and_eq_true, Bool.not_eq_true'] at h
  exact h.1

/-- **`orbis_jit_alloc`** takes a block from an arena that is there, or from the one that it adds, or
answers `NULL`. -/
theorem orbisJitAlloc_inversion {size flags p : ℕ}
    (h : orbisJitAlloc anchor pf s size flags = some (s', p)) :
    (∃ i < s.sArenas, orbisJitServes anchor flags (s.sArena.slot i) = true ∧
      ∃ r, s.takeAt i (orbisJitBlockLen size) = some r ∧
        orbisJitHeader r.1 r.2 (orbisJitBlockLen size) = (s', p)) ∨
    ∃ s₁ grown, orbisJitGrow anchor pf s (orbisJitBlockLen size) flags = some (s₁, grown) ∧
      (p = 0 ∧ s' = s₁ ∨ grown = true ∧
        ∃ r, s₁.takeAt (s₁.sArenas - 1) (orbisJitBlockLen size) = some r ∧
          orbisJitHeader r.1 r.2 (orbisJitBlockLen size) = (s', p)) := by
  unfold orbisJitAlloc at h
  dsimp only at h
  cases hscan : orbisJitScan anchor s (orbisJitBlockLen size) flags with
  | some r =>
    rw [hscan] at h
    obtain ⟨i, hi, hserves, htake⟩ := orbisJitScan_eq_some hscan
    exact Or.inl ⟨i, hi, hserves, r, htake, Option.some.inj h⟩
  | none =>
    rw [hscan] at h
    obtain ⟨⟨s₁, grown⟩, hgrow, hres⟩ := Option.map_eq_some_iff.mp h
    refine Or.inr ⟨s₁, grown, hgrow, ?_⟩
    cases grown with
    | false =>
      obtain ⟨rfl, rfl⟩ := Prod.mk.inj hres
      exact Or.inl ⟨rfl, rfl⟩
    | true =>
      dsimp only at hres
      cases htake : s₁.takeAt (s₁.sArenas - 1) (orbisJitBlockLen size) with
      | none =>
        rw [htake] at hres
        obtain ⟨rfl, rfl⟩ := Prod.mk.inj hres
        exact Or.inl ⟨rfl, rfl⟩
      | some r =>
        rw [htake] at hres
        exact Or.inr ⟨rfl, r, rfl, hres⟩

/-- The table entry `orbis_jit_alloc_at` fills in. -/
def OrbisJitArena.owned (base size phys : ℕ) : OrbisJitArena :=
  { OrbisJitArena.zero with base, size, phys, dedicated := true }

/-- **`orbis_jit_alloc_at`** changes nothing, or maps at the address: for nothing, or for a dedicated
arena. -/
theorem orbisJitAllocAt_inversion {addr size p : ℕ}
    (h : orbisJitAllocAt pf s addr size = some (s', p)) :
    p = 0 ∧ s' = s ∨
    addr ≠ 0 ∧ 16384 ∣ addr ∧ s.sArenas < orbisJitMaxArenas ∧
      (∃ found, found ≠ 0 ∧ orbisJitFindFree pf.virtualQuery addr
        (Word64.add addr (orbisJitMapLen size)) (orbisJitMapLen size) = some found) ∧
      ∃ s₁ r, orbisJitMap pf s addr (orbisJitMapLen size) = (s₁, r) ∧
        (r = none ∧ p = 0 ∧ s' = s₁ ∨ ∃ base size' phys, r = some (base, size', phys) ∧
          p = base ∧ s' = { s₁ with sArena :=
            (s₁.sArena.set s₁.sArenas (.owned base size' phys)).setLen (s₁.sArenas + 1) }) := by
  unfold orbisJitAllocAt at h
  dsimp only at h
  split_ifs at h with haddr hfull
  · obtain ⟨rfl, rfl⟩ := Prod.mk.inj (Option.some.inj h)
    exact Or.inl ⟨rfl, rfl⟩
  · obtain ⟨rfl, rfl⟩ := Prod.mk.inj (Option.some.inj h)
    exact Or.inl ⟨rfl, rfl⟩
  · obtain ⟨found, hfound, h⟩ := Option.map_eq_some_iff.mp h
    push Not at haddr
    have haligned : 16384 ∣ addr := by
      have := haddr.2
      rw [show orbisJitGranule - 1 = 2 ^ 14 - 1 from rfl, Nat.and_two_pow_sub_one_eq_mod] at this
      omega
    split_ifs at h with h0
    · obtain ⟨rfl, rfl⟩ := Prod.mk.inj h
      exact Or.inl ⟨rfl, rfl⟩
    · rcases hm : orbisJitMap pf s addr (orbisJitMapLen size) with ⟨s₁, r⟩
      refine Or.inr ⟨haddr.1, haligned, Nat.not_le.mp hfull, ⟨found, h0, hfound⟩, s₁, r, rfl, ?_⟩
      rw [hm] at h
      match r, h with
      | none, h =>
        obtain ⟨rfl, rfl⟩ := Prod.mk.inj h
        exact Or.inl ⟨rfl, rfl, rfl⟩
      | some (base, size', phys), h =>
        obtain ⟨rfl, rfl⟩ := Prod.mk.inj h
        exact Or.inr ⟨base, size', phys, rfl, rfl, rfl⟩

/-! ### Freeing -/

section Lookup

variable (huser : ∀ a ∈ s.arenas, a.base + a.size ≤ userEnd)

include huser

/-- The test of the search of `orbis_jit_free`, for an arena in the table. -/
theorem arenaOf_test {a : OrbisJitArena} (ha : a ∈ s.arenas) (x : ℕ) :
    (!(decide (x < a.base) || decide (x ≥ Word64.add a.base a.size))) = true ↔ x ∈ a.extent := by
  have hu := huser a ha
  rw [Word64.add_of_lt (by unfold userEnd at hu; omega), Extent.mem_iff]
  simp

theorem mem_of_orbisJitArenaOf {x i : ℕ} (h : orbisJitArenaOf s x = some i) :
    i < s.sArenas ∧ x ∈ (s.sArena.slot i).extent := by
  obtain ⟨hi, hp, -⟩ := CTable.firstIdx_eq_some.mp h
  exact ⟨hi, (arenaOf_test huser (CTable.mem_toList.mpr ⟨i, hi, rfl⟩) x).mp hp⟩

/-- The search of `orbis_jit_free` finds the arena an address lies in. -/
theorem orbisJitArenaOf_of_mem
    (hap : s.arenas.Pairwise fun a b => Extent.Apart a.extent b.extent) {a : OrbisJitArena}
    (ha : a ∈ s.arenas) {x : ℕ} (hx : x ∈ a.extent) :
    ∃ i < s.sArenas, orbisJitArenaOf s x = some i ∧ s.sArena.slot i = a := by
  cases h : orbisJitArenaOf s x with
  | none =>
    obtain ⟨j, hj, rfl⟩ := CTable.mem_toList.mp ha
    have := CTable.firstIdx_eq_none.mp h j hj
    rw [(arenaOf_test huser ha x).mpr hx] at this
    cases this
  | some i =>
    obtain ⟨hi, hmem⟩ := mem_of_orbisJitArenaOf huser h
    exact ⟨i, hi, rfl,
      Extent.eq_of_mem_of_apart hap (CTable.mem_toList.mpr ⟨i, hi, rfl⟩) ha hmem hx⟩

end Lookup

theorem dropArena_arenas {i : ℕ} (hi : i < s.sArenas) :
    (s.dropArena i).arenas = s.arenas.take i ++ s.arenas.drop (i + 1) := by
  show (((s.sArena.removeAt i).set (s.sArena.removeAt i).n .zero)).toList = _
  rw [CTable.toList_set_n, CTable.toList_removeAt_split _ hi]
  rfl

/-- **`orbis_jit_free`** changes nothing, or drops the dedicated arena that starts at the address, or
puts a block back whose header it trusts. -/
theorem orbisJitFree_inversion (s : State) (addr : ℕ) :
    orbisJitFree s addr = s ∨ ∃ i, orbisJitArenaOf s addr = some i ∧ i < s.sArenas ∧
      ((s.sArena.slot i).dedicated = true ∧ addr = (s.sArena.slot i).base ∧
        orbisJitFree s addr = s.dropArena i ∨
      (s.sArena.slot i).dedicated = false ∧
        orbisJitHeaderOk (s.sArena.slot i) (Word64.sub addr orbisJitAlign)
          (s.mem.load64 (Word64.sub addr orbisJitAlign)) = true ∧
        orbisJitFree s addr = { s with sArena := s.sArena.set i (orbisJitGive (s.sArena.slot i)
          (Word64.sub addr orbisJitAlign) (s.mem.load64 (Word64.sub addr orbisJitAlign))) }) := by
  by_cases h0 : addr = 0
  · exact Or.inl (if_pos h0)
  have hfree : orbisJitFree s addr = _ := if_neg h0
  cases hof : orbisJitArenaOf s addr with
  | none =>
    rw [hof] at hfree
    exact Or.inl hfree
  | some i =>
    obtain ⟨hi, -, -⟩ := CTable.firstIdx_eq_some.mp hof
    rw [hof] at hfree
    dsimp only at hfree
    split_ifs at hfree with hd hb hok
    · exact Or.inl hfree
    · exact Or.inr ⟨i, rfl, hi, Or.inl ⟨hd, not_not.mp hb, hfree⟩⟩
    · exact Or.inr ⟨i, rfl, hi, Or.inr ⟨Bool.not_eq_true _ ▸ hd, hok, hfree⟩⟩
    · exact Or.inl hfree

end OrbisCompat.Jit
