import OrbisCompat.Mmap.Equiv.Calls
import OrbisCompat.Mmap.Traffic

/-!
# When `mapOwned` finds a block

`allocInLocked` finds a block exactly when one `Fits`, and `addCarveLocked` takes a carve-out exactly when
it `CanAdd` one, which then fits.  So `mapOwned` answers out of a carve-out exactly when there is `Room`
(`mapOwned_exact`).  This takes no more of the table than that the blocks of each carve-out lie in it
(`State.Placed`), which holds in every run whatever the lengths asked for.
-/

namespace OrbisCompat.Mmap

open Extent Tile

/-- Every carve-out of the table has its blocks in place. -/
def State.Placed (s : State) : Prop := ∀ c ∈ s.carveList, PlacedCarve c

/-- What every call leaves: the blocks in place, and no carve-out of a size that was not there or asked
for. -/
structure KeepsPlace (want : ℕ) (s s' : State) : Prop where
  placed : s'.Placed
  sizes : ∀ c' ∈ s'.carveList, (∃ c ∈ s.carveList, c'.size = c.size) ∨ c'.size = carveLen want

/-- What the search for a block leaves: also the counters as they were. -/
structure Searched (want : ℕ) (s s' : State) : Prop extends KeepsPlace want s s' where
  frame : s' = { s with carve := s'.carve, heldBytes := s'.heldBytes, kernel := s'.kernel }

/-- What the search for a block answers. -/
structure Answers (pf : Platform) (s : State) (want out : ℕ) : Prop where
  room : 0 < out ↔ s.Room pf want
  existing : (∃ c ∈ s.carveList, c.Fits want) → ∃ c ∈ s.carveList, Within ⟨out, want⟩ c.extent

variable {pf : Platform} {s s' : State} {i want out : ℕ}

/-- The counters do not matter. -/
theorem KeepsPlace.of_carve (P : s.Placed) (h : s'.carve = s.carve) : KeepsPlace want s s' := by
  have hlist : s'.carveList = s.carveList := by
    rw [State.carveList, h]
    rfl
  refine ⟨fun c hc => ?_, fun c hc => Or.inl ⟨c, ?_, rfl⟩⟩
  · rw [hlist] at hc
    exact P c hc
  · rwa [hlist] at hc

theorem KeepsPlace.trans {s₁ s₂ s₃ : State} (h : KeepsPlace want s₁ s₂)
    (h' : KeepsPlace want s₂ s₃) : KeepsPlace want s₁ s₃ := by
  refine ⟨h'.placed, fun c hc => ?_⟩
  rcases h'.sizes c hc with ⟨d, hd, hsize⟩ | hsize
  · rw [hsize]
    exact h.sizes d hd
  · exact Or.inr hsize

theorem Searched.refl (P : s.Placed) : Searched want s s := ⟨.of_carve P rfl, rfl⟩

theorem Searched.trans {s₁ s₂ s₃ : State} (h : Searched want s₁ s₂) (h' : Searched want s₂ s₃) :
    Searched want s₁ s₃ := by
  refine ⟨h.toKeepsPlace.trans h'.toKeepsPlace, ?_⟩
  rw [h'.frame, h.frame]

theorem State.Placed.slot (P : s.Placed) (hi : i < s.carves) : PlacedCarve (s.carve.slot i) :=
  P _ (CTable.mem_toList.mpr ⟨i, hi, rfl⟩)

@[simp] theorem orbisMmapCounts_noteLive (s : State) (n : ℕ) :
    orbisMmapCounts (s.noteLive n) = orbisMmapCounts s := rfl

@[simp] theorem orbisMmapCounts_noteFallback (s : State) (n : ℕ) :
    orbisMmapCounts (s.noteFallback n) = orbisMmapCounts s := rfl

/-- A carve-out rewritten in place. -/
theorem State.Placed.set (P : s.Placed) (hi : i < s.carves) {c : Carve} (hc : PlacedCarve c)
    (hsize : c.size = (s.carve.slot i).size) :
    KeepsPlace want s { s with carve := s.carve.set i c } := by
  have hmem : ∀ d ∈ State.carveList { s with carve := s.carve.set i c }, d ∈ s.carveList ∨ d = c := by
    intro d hd
    rw [State.carveList, CTable.toList_set] at hd
    exact List.mem_or_eq_of_mem_set hd
  refine ⟨fun d hd => ?_, fun d hd => Or.inl ?_⟩
  · rcases hmem d hd with hd | rfl
    · exact P d hd
    · exact hc
  · rcases hmem d hd with hd | rfl
    · exact ⟨d, hd, rfl⟩
    · exact ⟨_, CTable.mem_toList.mpr ⟨i, hi, rfl⟩, hsize⟩

/-- A carve-out added at the end. -/
theorem KeepsPlace.push (P : s.Placed) {c : Carve} (hc : PlacedCarve c) (hsize : c.size = carveLen want)
    {k : Holdings} {held : ℕ} : KeepsPlace want s { s with
      carve := (s.carve.set s.carves c).setLen (s.carves + 1), heldBytes := held, kernel := k } := by
  have hmem : ∀ d ∈ CTable.toList ((s.carve.set s.carves c).setLen (s.carves + 1)),
      d ∈ s.carveList ∨ d = c := by
    intro d hd
    rw [State.carves, CTable.toList_push] at hd
    rcases List.mem_append.mp hd with hd | hd
    · exact Or.inl hd
    · exact Or.inr (List.mem_singleton.mp hd)
  refine ⟨fun d hd => ?_, fun d hd => ?_⟩
  · rcases hmem d hd with hd | rfl
    · exact P d hd
    · exact hc
  · rcases hmem d hd with hd | rfl
    · exact Or.inl ⟨d, hd, rfl⟩
    · exact Or.inr hsize

/-! ### In a carve-out -/

/-- **`allocInLocked`** finds a block exactly when one fits. -/
theorem isSome_allocInLocked {c : Carve} : (allocInLocked c want).isSome = true ↔ c.Fits want := by
  unfold allocInLocked Carve.Fits Carve.blocks
  rw [Option.isSome_map, CTable.isSome_firstIdx]
  simp only [Bool.and_eq_true, Bool.not_eq_true', Bool.or_eq_false_iff, decide_eq_false_iff_not,
    Nat.not_lt, Bool.or_eq_true, beq_iff_eq, decide_eq_true_eq, and_assoc]

/-- On one carve-out of the table. -/
theorem allocAt_exact (P : s.Placed) (hi : i < s.carves) (h : s.allocAt i want = (s', out)) :
    out = 0 ∧ s' = s ∧ ¬(s.carve.slot i).Fits want ∨
      0 < out ∧ Searched want s s' ∧ (s.carve.slot i).Fits want ∧
        Within ⟨out, want⟩ (s.carve.slot i).extent := by
  unfold State.allocAt at h
  cases halloc : allocInLocked (s.carve.slot i) want with
  | none =>
    rw [halloc] at h
    obtain ⟨rfl, rfl⟩ := Prod.mk.inj h
    refine Or.inl ⟨rfl, rfl, fun hfit => ?_⟩
    rw [← isSome_allocInLocked, halloc] at hfit
    cases hfit
  | some r =>
    obtain ⟨c', p⟩ := r
    rw [halloc] at h
    obtain ⟨rfl, rfl⟩ := Prod.mk.inj h
    obtain ⟨hc', hsize, hpos, hin⟩ := (P.slot hi).alloc halloc
    refine Or.inr ⟨hpos, ⟨P.set hi hc' hsize, rfl⟩, ?_, hin⟩
    rw [← isSome_allocInLocked, halloc]
    rfl

/-- The loop of `mapOwned` finds a block exactly when one fits in a carve-out it looks at. -/
theorem mapOwnedScan_exact (P : s.Placed) : ∀ is : List ℕ, (∀ i ∈ is, i < s.carves) →
    mapOwnedScan want is s = (s', out) →
    out = 0 ∧ s' = s ∧ (∀ i ∈ is, ¬(s.carve.slot i).Fits want) ∨
      0 < out ∧ Searched want s s' ∧
        ∃ i ∈ is, (s.carve.slot i).Fits want ∧ Within ⟨out, want⟩ (s.carve.slot i).extent := by
  intro is
  induction is with
  | nil =>
    intro _ h
    obtain ⟨rfl, rfl⟩ := Prod.mk.inj h
    exact Or.inl ⟨rfl, rfl, by simp⟩
  | cons i is ih =>
    intro his h
    unfold mapOwnedScan at h
    rcases ha : s.allocAt i want with ⟨s₁, out₁⟩
    rw [ha] at h
    dsimp only at h
    rcases allocAt_exact P (his i List.mem_cons_self) ha with ⟨rfl, rfl, hno⟩ | ⟨hpos, hs, hfit⟩
    · rw [if_neg (by simp)] at h
      rcases ih (fun j hj => his j (List.mem_cons_of_mem _ hj)) h with
        ⟨rfl, rfl, hnone⟩ | ⟨hpos, hs, j, hj, hfit⟩
      · exact Or.inl ⟨rfl, rfl, List.forall_mem_cons.mpr ⟨hno, hnone⟩⟩
      · exact Or.inr ⟨hpos, hs, j, List.mem_cons_of_mem _ hj, hfit⟩
    · rw [if_pos (by omega)] at h
      obtain ⟨rfl, rfl⟩ := Prod.mk.inj h
      exact Or.inr ⟨hpos, hs, i, List.mem_cons_self, hfit⟩

/-! ### In a new carve-out -/

/-- A new carve-out is long enough, unless its length has wrapped to zero. -/
theorem le_carveLen (hwant : want < 2 ^ 64) (hpos : 0 < carveLen want) : want ≤ carveLen want := by
  have hup : carveLen want = ((if want > CarveBytes then want else CarveBytes) + (2 ^ 21 - 1))
      % 2 ^ 64 / 2 ^ 21 * 2 ^ 21 := Word64.alignUp_two_pow (k := 21) (by norm_num)
  have hle : want ≤ if want > CarveBytes then want else CarveBytes := by
    split_ifs <;> omega
  have hlt : (if want > CarveBytes then want else CarveBytes) < 2 ^ 64 := by
    unfold CarveBytes
    split_ifs <;> omega
  generalize (if want > CarveBytes then want else CarveBytes) = n at hup hle hlt
  omega

/-- A page boundary, as the code tests it. -/
theorem mask_page {va : ℕ} : va &&& (Page - 1) ≠ 0 ↔ ¬Page ∣ va := by
  rw [show Page - 1 = 2 ^ 14 - 1 from rfl, Nat.and_two_pow_sub_one_eq_mod,
    show Page = 2 ^ 14 from rfl, Nat.dvd_iff_mod_eq_zero]

/-- **`addCarveLocked`** takes a carve-out exactly when it can, and then the block of it fits. -/
theorem addCarveLocked_exact {ok : Bool} (P : s.Placed) (hpf : pf.Documented s.carveList)
    (hwant : want < 2 ^ 64) (h : addCarveLocked pf s want = (s', ok)) :
    Searched want s s' ∧ (ok = true ↔ s.CanAdd pf want) ∧
      (ok = true → 0 < s'.carves ∧ (s'.carve.slot (s'.carves - 1)).Fits want) := by
  unfold addCarveLocked at h
  unfold State.CanAdd
  rw [show alignUp (if want > CarveBytes then want else CarveBytes) DirectAlign = carveLen want
    from rfl] at h
  -- each guard that refuses is a conjunct of `CanAdd`, in the order of the tests
  by_cases hfull : s.carves ≥ MaxCarves
  · rw [if_pos hfull] at h
    obtain ⟨rfl, rfl⟩ := Prod.mk.inj h
    refine ⟨.refl P, ⟨nofun, fun hadd => ?_⟩, nofun⟩
    exact absurd hadd.1 (Nat.not_lt.mpr hfull)
  rw [if_neg hfull] at h
  dsimp only at h
  by_cases hcap : Word64.add s.heldBytes (carveLen want) > DirectCap
  · rw [if_pos hcap] at h
    obtain ⟨rfl, rfl⟩ := Prod.mk.inj h
    refine ⟨.refl P, ⟨nofun, fun hadd => ?_⟩, nofun⟩
    exact absurd hadd.2.1 (Nat.not_le.mpr hcap)
  rw [if_neg hcap] at h
  cases hphys : pf.allocateDirectMemory (carveLen want) with
  | none =>
    rw [hphys] at h
    obtain ⟨rfl, rfl⟩ := Prod.mk.inj h
    refine ⟨.refl P, ⟨nofun, fun hadd => ?_⟩, nofun⟩
    obtain ⟨-, -, _, _, hno, -⟩ := hadd
    cases hno
  | some phys =>
    have hpos : 0 < carveLen want := by
      refine Nat.pos_of_ne_zero fun hzero => ?_
      rw [hzero, hpf.allocate_zero] at hphys
      cases hphys
    rw [hphys] at h
    dsimp only at h
    cases hva : pf.mapDirectMemory (carveLen want) phys with
    | none =>
      rw [hva] at h
      obtain ⟨rfl, rfl⟩ := Prod.mk.inj h
      refine ⟨⟨.of_carve P rfl, rfl⟩, ⟨nofun, fun hadd => ?_⟩, nofun⟩
      obtain ⟨-, -, _, _, hphys', hno, -⟩ := hadd
      obtain rfl := Option.some.inj hphys'
      rw [hva] at hno
      cases hno
    | some va =>
      rw [hva] at h
      dsimp only at h
      by_cases hpage : Page ∣ va
      · rw [if_neg (by rw [mask_page]; exact not_not.mpr hpage)] at h
        obtain ⟨rfl, rfl⟩ := Prod.mk.inj h
        obtain ⟨hva0, huser⟩ := hpf.map_user _ _ _ hva
        -- the new carve-out is one free block, so the request fits in it
        have hnew : PlacedCarve ⟨va, phys, carveLen want, ⟨1, fun _ => ⟨0, carveLen want, false⟩⟩⟩ := by
          refine ⟨hva0, huser, ⟨rfl, Nat.zero_add _⟩, ?_⟩
          show 1 ≤ MaxBlocks
          norm_num [MaxBlocks]
        refine ⟨⟨.push P hnew rfl, rfl⟩, ⟨fun _ => ?_, fun _ => rfl⟩, fun _ => ⟨Nat.succ_pos _, ?_⟩⟩
        · exact ⟨Nat.lt_of_not_le hfull, Nat.not_lt.mp hcap, phys, va, rfl, hva, hpage⟩
        · show Carve.Fits ((s.carve.set s.carves _).slot s.carves) want
          rw [CTable.set_slot_self]
          refine ⟨⟨0, carveLen want, false⟩, List.mem_singleton.mpr rfl, rfl,
            le_carveLen hwant hpos, Or.inr ?_⟩
          show 1 < MaxBlocks
          norm_num [MaxBlocks]
      · rw [if_pos (mask_page.mpr hpage)] at h
        obtain ⟨rfl, rfl⟩ := Prod.mk.inj h
        refine ⟨⟨.of_carve P rfl, rfl⟩, ⟨nofun, fun hadd => ?_⟩, nofun⟩
        obtain ⟨-, -, _, _, hphys', hva', hpage'⟩ := hadd
        obtain rfl := Option.some.inj hphys'
        rw [hva] at hva'
        obtain rfl := Option.some.inj hva'
        exact absurd hpage' hpage

/-! ### In either -/

/-- **The search of `mapOwned`** finds a block exactly when there is room, in a carve-out that exists when
one fits there. -/
theorem mapOwnedFind_exact (P : s.Placed) (hpf : pf.Documented s.carveList) (hwant : want < 2 ^ 64)
    (h : mapOwnedFind pf s want = (s', out)) : Searched want s s' ∧ Answers pf s want out := by
  unfold mapOwnedFind at h
  rcases hscan : mapOwnedScan want (List.range s.carves) s with ⟨s₁, out₁⟩
  rw [hscan] at h
  dsimp only at h
  rcases mapOwnedScan_exact P _ (fun i hi => List.mem_range.mp hi) hscan with
    ⟨rfl, rfl, hnone⟩ | ⟨hpos, hs, i, hi, hfit, hin⟩
  · rw [if_neg (by simp)] at h
    have hno : ¬∃ c ∈ s₁.carveList, c.Fits want := by
      rintro ⟨c, hc, hfit⟩
      obtain ⟨i, hi, rfl⟩ := CTable.mem_toList.mp hc
      exact hnone i (List.mem_range.mpr hi) hfit
    rcases hadd : addCarveLocked pf s₁ want with ⟨s₂, ok⟩
    obtain ⟨hs, hok, hnew⟩ := addCarveLocked_exact P hpf hwant hadd
    rw [hadd] at h
    cases ok with
    | false =>
      obtain ⟨rfl, rfl⟩ := Prod.mk.inj h
      refine ⟨hs, ⟨fun hlt => absurd hlt (lt_irrefl 0), ?_⟩, fun hfit => absurd hfit hno⟩
      rintro (hfit | hcan)
      · exact absurd hfit hno
      · cases hok.mpr hcan
    | true =>
      obtain ⟨hn, hfit⟩ := hnew rfl
      rcases allocAt_exact hs.placed (Nat.sub_lt hn Nat.one_pos) h with
        ⟨-, -, hnot⟩ | ⟨hpos, hs', -⟩
      · exact absurd hfit hnot
      · exact ⟨hs.trans hs', ⟨fun _ => Or.inr (hok.mp rfl), fun _ => hpos⟩,
          fun hfit => absurd hfit hno⟩
  · rw [if_pos (by omega)] at h
    obtain ⟨rfl, rfl⟩ := Prod.mk.inj h
    have hc : s.carve.slot i ∈ s.carveList := CTable.mem_toList.mpr ⟨i, List.mem_range.mp hi, rfl⟩
    exact ⟨hs, ⟨fun _ => Or.inl ⟨_, hc, hfit⟩, fun _ => hpos⟩, fun _ => ⟨_, hc, hin⟩⟩

/-- The part of `mapOwned` under the lock, which leaves the counts of calls alone. -/
theorem mapOwnedLocked_exact (P : s.Placed) (hpf : pf.Documented s.carveList) (hwant : want < 2 ^ 64)
    (h : mapOwnedLocked pf s want = (s', out)) :
    KeepsPlace want s s' ∧ orbisMmapCounts s' = orbisMmapCounts s ∧ Answers pf s want out := by
  unfold mapOwnedLocked at h
  rcases hfind : mapOwnedFind pf s want with ⟨s₁, out₁⟩
  obtain ⟨hs, hans⟩ := mapOwnedFind_exact P hpf hwant hfind
  have hcounts : orbisMmapCounts s₁ = orbisMmapCounts s := by
    rw [hs.frame]
    rfl
  rw [hfind] at h
  dsimp only at h
  split_ifs at h with hout
  · obtain ⟨rfl, rfl⟩ := Prod.mk.inj h
    exact ⟨hs.toKeepsPlace.trans (.of_carve hs.placed rfl), by rwa [orbisMmapCounts_noteLive], hans⟩
  · obtain ⟨rfl, rfl⟩ := Prod.mk.inj h
    rw [not_not.mp hout] at hans
    exact ⟨hs.toKeepsPlace.trans (.of_carve hs.placed rfl), by rwa [orbisMmapCounts_noteFallback],
      hans⟩

/-- What an owned request is answered. -/
structure MapAnswers (pf : Platform) (s : State) (want : ℕ) (a : Answer ℕ) : Prop where
  room : a.carved = true ↔ s.Room pf want
  existing : (∃ c ∈ s.carveList, c.Fits want) →
    ∃ c ∈ s.carveList, Within ⟨a.value, want⟩ c.extent

/-- **`mapOwned`** answers out of a carve-out exactly when there is room. -/
theorem mapOwned_exact {len : ℕ} {a : Answer ℕ} (P : s.Placed) (hpf : pf.Documented s.carveList)
    (h : mapOwned pf s len = (s', a)) :
    KeepsPlace (alignUp len Page) s s' ∧ orbisMmapCounts s' = orbisMmapCounts s ∧
      MapAnswers pf s (alignUp len Page) a := by
  unfold mapOwned at h
  dsimp only at h
  rcases hl : mapOwnedLocked pf s (alignUp len Page) with ⟨s₁, out⟩
  obtain ⟨K, hcounts, hans⟩ := mapOwnedLocked_exact P hpf (Word64.alignUp_lt_two_pow _ _) hl
  rw [hl] at h
  dsimp only at h
  split_ifs at h with hout
  · obtain ⟨rfl, rfl⟩ := Prod.mk.inj h
    exact ⟨K.trans (.of_carve K.placed rfl), hcounts,
      ⟨fun _ => hans.room.mp (Nat.pos_of_ne_zero hout), fun _ => rfl⟩, hans.existing⟩
  · obtain ⟨rfl, rfl⟩ := Prod.mk.inj h
    have hno : ¬s.Room pf (alignUp len Page) := fun hr => absurd (hans.room.mpr hr) (by omega)
    exact ⟨K, hcounts, ⟨nofun, fun hr => absurd hr hno⟩, fun hfit => absurd (Or.inl hfit) hno⟩

/-- **`__munmap`** leaves the blocks in place. -/
theorem munmap_keeps (P : s.Placed) (want addr len : ℕ) :
    KeepsPlace want s (munmap pf s addr len).1 := by
  rcases munmap_inversion pf s addr len with
    ⟨-, hres⟩ | ⟨i, hof, ⟨-, hres⟩ | ⟨c', hfree, hres⟩⟩ <;> rw [hres]
  · exact .of_carve P rfl
  · exact .of_carve P rfl
  · obtain ⟨hi, -, -⟩ := CTable.firstIdx_eq_some.mp hof
    obtain ⟨hc', hsize⟩ := (P.slot hi).free hfree
    have K : KeepsPlace want s _ := P.set hi hc' hsize
    exact K.trans (.of_carve K.placed rfl)

/-! ### `__mmap` -/

/-- **An owned request** goes to `mapOwned`, with two counters raised. -/
theorem mmap_owned_exact {r : MapRequest} {a : Answer ℕ} (P : s.Placed)
    (hpf : pf.Documented s.carveList) (howned : isOwnedRequest r = true)
    (h : mmap true pf s r = (s', a)) :
    KeepsPlace (alignUp r.len Page) s s' ∧ MapAnswers pf s (alignUp r.len Page) a ∧
      orbisMmapCounts s' = { orbisMmapCounts s with
        maps := bump s.mmapCalls 1, mapsCarved := bump s.mmapCarved 1 } := by
  unfold mmap at h
  dsimp only at h
  rw [howned, Bool.and_true, if_pos rfl] at h
  generalize hs₁ : ({ s with
    mmapCalls := bump s.mmapCalls 1, mmapCarved := bump s.mmapCarved 1 } : State) = s₁ at h
  have hcarve : s₁.carve = s.carve := by rw [← hs₁]
  have hlist : s₁.carveList = s.carveList := by rw [State.carveList, hcarve]; rfl
  have hheld : s₁.heldBytes = s.heldBytes := by rw [← hs₁]
  have hcounts₁ : orbisMmapCounts s₁ = { orbisMmapCounts s with
      maps := bump s.mmapCalls 1, mapsCarved := bump s.mmapCarved 1 } := by
    rw [← hs₁]
    rfl
  have hroom : s₁.Room pf (alignUp r.len Page) ↔ s.Room pf (alignUp r.len Page) := by
    unfold State.Room State.CanAdd State.carves
    rw [hlist, hcarve, hheld]
  have K : KeepsPlace (alignUp r.len Page) s s₁ := .of_carve P hcarve
  obtain ⟨K', hcounts, hans⟩ := mapOwned_exact K.placed (by rw [hlist]; exact hpf) h
  refine ⟨K.trans K', ⟨hans.room.trans hroom, ?_⟩, hcounts.trans hcounts₁⟩
  rw [← hlist]
  exact hans.existing

/-- When the first carve-out serves the request, it is the only thing in the table that changes. -/
theorem mmap_first (pf : Platform) {r : MapRequest} {c : Carve} {p : ℕ} (hone : s.carves = 1)
    (howned : isOwnedRequest r = true) (hp : 0 < p)
    (h : allocInLocked (s.carve.slot 0) (alignUp r.len Page) = some (c, p)) :
    ∃ s', mmap true pf s r = (s', ⟨p, true⟩) ∧ s'.carve = s.carve.set 0 c := by
  have hfind : ∀ s₁ : State, s₁.carve = s.carve → mapOwnedFind pf s₁ (alignUp r.len Page)
      = ({ s₁ with carve := s.carve.set 0 c }, p) := by
    intro s₁ hcarve
    have hcarves : s₁.carves = 1 := by rw [State.carves, hcarve]; exact hone
    have halloc : s₁.allocAt 0 (alignUp r.len Page) = ({ s₁ with carve := s.carve.set 0 c }, p) := by
      unfold State.allocAt
      rw [hcarve, h]
    have hscan : mapOwnedScan (alignUp r.len Page) (List.range s₁.carves) s₁
        = ({ s₁ with carve := s.carve.set 0 c }, p) := by
      rw [hcarves, List.range_one]
      unfold mapOwnedScan
      rw [halloc]
      exact if_pos hp.ne'
    unfold mapOwnedFind
    rw [hscan]
    exact if_pos hp.ne'
  have hlocked : ∀ s₁ : State, s₁.carve = s.carve → mapOwnedLocked pf s₁ (alignUp r.len Page)
      = (State.noteLive { s₁ with carve := s.carve.set 0 c } (alignUp r.len Page), p) := by
    intro s₁ hcarve
    unfold mapOwnedLocked
    rw [hfind s₁ hcarve]
    exact if_pos hp.ne'
  unfold mmap
  dsimp only
  rw [howned, Bool.and_true, if_pos rfl]
  generalize hs₁ : ({ s with
    mmapCalls := bump s.mmapCalls 1, mmapCarved := bump s.mmapCarved 1 } : State) = s₁
  have hcarve : s₁.carve = s.carve := by rw [← hs₁]
  unfold mapOwned
  dsimp only
  rw [hlocked s₁ hcarve]
  dsimp only
  rw [if_pos hp.ne']
  exact ⟨_, rfl, rfl⟩

/-- Every other request is the platform's, and counted so. -/
theorem mmap_foreign (direct : Bool) (pf : Platform) (s : State) {r : MapRequest}
    (h : (isOwnedRequest r && direct) = false) :
    mmap direct pf s r = ({ s with
      mmapCalls := bump s.mmapCalls 1, mmapFell := bump s.mmapFell 1 }, ⟨pf.mmap r, false⟩) := by
  unfold mmap
  dsimp only
  rw [if_neg (by rw [h]; exact Bool.false_ne_true)]

/-- **`__mmap`** leaves the blocks in place. -/
theorem mmap_keeps {direct : Bool} (P : s.Placed) (hpf : pf.Documented s.carveList) (r : MapRequest) :
    KeepsPlace (alignUp r.len Page) s (mmap direct pf s r).1 := by
  cases howned : isOwnedRequest r && direct with
  | false =>
    rw [mmap_foreign direct pf s howned]
    exact .of_carve P rfl
  | true =>
    obtain ⟨ho, rfl⟩ := Bool.and_eq_true _ _ |>.mp howned
    exact (mmap_owned_exact P hpf ho rfl).1

end OrbisCompat.Mmap
