import OrbisCompat.Mmap.Equiv.Census

/-!
# `__munmap` inside a carve-out

An address of a carve-out and a length either name a block in use, or they do not.  The binary search of
`freeInLocked` tells which, whatever the address: in the first case that block is released
(`munmap_used`), in the second nothing is (`munmap_not_used`).
-/

namespace OrbisCompat.Mmap

open Extent Tile

variable {live : List Mapping} {s : State} {c : Carve} {addr len : ℕ}

/-- Blocks in use are at different places. -/
theorem Table.nodup_usedExtents (T : Table s.carveList live) : s.usedExtents.Nodup := by
  refine nodup_of_apart ((T.used.pairwise_iff fun h => h.symm).mpr T.pairwise) fun e he => ?_
  obtain ⟨d, hd, hed⟩ := List.mem_flatMap.mp he
  exact ((T.good d hd).usedExtent hed).2.2

/-- A block in use that starts in a carve-out is one of its blocks. -/
theorem Table.mem_usedExtents (T : Table s.carveList live) (hc : c ∈ s.carveList)
    (haddr : addr ∈ c.extent) {n : ℕ} :
    (⟨addr, n⟩ : Extent) ∈ s.usedExtents ↔
      ∃ b ∈ c.blocks, b.used = true ∧ b.size = n ∧ addr = c.va + b.off := by
  constructor
  · intro h
    obtain ⟨d, hd, hmem⟩ := List.mem_flatMap.mp h
    obtain ⟨hwithin, -, hpos⟩ := (T.good d hd).usedExtent hmem
    -- the carve-out of the block contains the address too
    obtain rfl : d = c :=
      T.carve_unique hd hc (hwithin.mem ⟨le_rfl, Nat.lt_add_of_pos_right hpos⟩) haddr
    obtain ⟨b, hb, hext⟩ := List.mem_map.mp hmem
    obtain ⟨hbd, hused⟩ := List.mem_filter.mp hb
    exact ⟨b, hbd, hused, congrArg Extent.len hext, (congrArg Extent.start hext).symm⟩
  · rintro ⟨b, hb, hused, rfl, rfl⟩
    exact List.mem_flatMap.mpr ⟨c, hc, List.mem_map.mpr
      ⟨b, List.mem_filter.mpr ⟨hb, hused⟩, rfl⟩⟩

/-- A block in use is released. -/
theorem munmap_used (pf : Platform) (T : Table s.carveList live) (hc : c ∈ s.carveList)
    (haddr : addr ∈ c.extent) (hused : (⟨addr, alignUp len Page⟩ : Extent) ∈ s.usedExtents) :
    ∃ s', munmap pf s addr len = (s', ⟨0, true⟩) ∧
      s.usedExtents.Perm (⟨addr, alignUp len Page⟩ :: s'.usedExtents) ∧
      s'.liveBytes = Word64.sub s.liveBytes (alignUp len Page) := by
  obtain ⟨b, hb, hbused, hsize, rfl⟩ := (T.mem_usedExtents hc haddr).mp hused
  obtain ⟨i, hi, hof, rfl⟩ := carveOfLocked_of_mem T hc haddr
  obtain ⟨-, -, c', -, hfree, -, -⟩ := freeInLocked_of_mem (T.good _ hc) hb hbused
  rw [hsize] at hfree
  rcases munmap_inversion pf s ((s.carve.slot i).va + b.off) len with
    ⟨hnone, -⟩ | ⟨j, hof', hres⟩
  · rw [hof] at hnone
    cases hnone
  · obtain rfl : i = j := by rw [hof] at hof'; exact Option.some.inj hof'
    rcases hres with ⟨hnone, -⟩ | ⟨d, hfree', hres⟩
    · rw [hfree] at hnone
      cases hnone
    · exact ⟨_, hres, usedExtents_free T hi haddr hfree', rfl⟩

/-- Anything else is an anomaly, and changes nothing but its counter. -/
theorem munmap_not_used (pf : Platform) (T : Table s.carveList live) (hc : c ∈ s.carveList)
    (haddr : addr ∈ c.extent) (hused : (⟨addr, alignUp len Page⟩ : Extent) ∉ s.usedExtents) :
    munmap pf s addr len = ({ s with
      munmapCalls := bump s.munmapCalls 1, anomalies := bump s.anomalies 1
      errno := EINVAL }, ⟨-1, true⟩) := by
  obtain ⟨i, hi, hof, rfl⟩ := carveOfLocked_of_mem T hc haddr
  rcases munmap_inversion pf s addr len with ⟨hnone, -⟩ | ⟨j, hof', hres⟩
  · rw [hof] at hnone
    cases hnone
  · obtain rfl : i = j := by rw [hof] at hof'; exact Option.some.inj hof'
    rcases hres with ⟨-, hres⟩ | ⟨d, hfree, -⟩
    · exact hres
    · exact absurd ((T.mem_usedExtents hc haddr).mpr
        (freeInLocked_eq_some (T.good _ hc) haddr hfree)) hused

/-- **`__munmap` is exact, and atomic on error.**  In every reachable world, for an address inside a
carve-out and any length: the length in whole pages names one block in use, and that block and its
bytes are what the call takes away; or it names none, and the call fails with `EINVAL` and leaves the
blocks and the bytes alone. -/
theorem Reaches.munmap_exact {direct : Bool} {mem : FlatMem} {cs : List Call} {w : World}
    (h : Reaches direct (Call.LenWithin (2 ^ 63)) mem cs w) (pf : Platform)
    (hc : c ∈ w.st.carveList) (haddr : addr ∈ c.extent) (len : ℕ) :
    (w.st.usedExtents.count ⟨addr, alignUp len Page⟩ = 1 ∧
      ∃ s', munmap pf w.st addr len = (s', ⟨0, true⟩) ∧
        w.st.usedExtents.Perm (⟨addr, alignUp len Page⟩ :: s'.usedExtents) ∧
        s'.liveBytes + alignUp len Page = w.st.liveBytes) ∨
    ((⟨addr, alignUp len Page⟩ : Extent) ∉ w.st.usedExtents ∧
      munmap pf w.st addr len = ({ w.st with
        munmapCalls := bump w.st.munmapCalls 1, anomalies := bump w.st.anomalies 1
        errno := EINVAL }, ⟨-1, true⟩)) := by
  obtain ⟨T, C⟩ := h.census_ok
  by_cases hused : (⟨addr, alignUp len Page⟩ : Extent) ∈ w.st.usedExtents
  · obtain ⟨s', hres, hperm, hlive⟩ := munmap_used pf T hc haddr hused
    refine Or.inl ⟨T.nodup_usedExtents.count.trans (if_pos hused), s', hres, hperm, ?_⟩
    have hfits : totalLen w.st.usedExtents < 2 ^ 63 :=
      lt_of_le_of_lt (C.held.used_le T) (by unfold DirectCap MaxCarves CarveBytes; norm_num)
    have htotal := totalLen_perm hperm
    generalize alignUp len Page = want at hlive htotal
    rw [totalLen_cons, show (⟨addr, want⟩ : Extent).len = want from rfl] at htotal
    rw [hlive, C.live, Word64.sub_of_le (by omega) (by omega)]
    omega
  · exact Or.inr ⟨hused, munmap_not_used pf T hc haddr hused⟩

/-- Two pages are mapped on an idle console, and their second page is unmapped: an error, and both stay
live. -/
theorem munmap_exact_interior : ∃ w, Reaches true (Call.LenWithin (2 ^ 63)) (fun _ => 0)
      [.mmap (ownedRequest 20000)] w ∧
    (munmap .idle w.st 0x200004000 16384).2 = ⟨-1, true⟩ ∧
    (munmap .idle w.st 0x200004000 16384).1.usedExtents = w.st.usedExtents := by
  have hmap : Step true (World.init fun _ => 0) (.mmap (ownedRequest 20000)) _ :=
    .mmap .idle Platform.idle_documented (by decide)
  have hrun : Reaches true (Call.LenWithin (2 ^ 63)) (fun _ => 0) [.mmap (ownedRequest 20000)] _ :=
    .cons ⟨fun _ => by decide, hmap⟩ (.nil _)
  obtain ⟨w, hrun, hn, haddr, hnone⟩ : ∃ w, Reaches true (Call.LenWithin (2 ^ 63)) (fun _ => 0)
      [.mmap (ownedRequest 20000)] w ∧ w.st.carve.n = 1 ∧
      0x200004000 ∈ (w.st.carve.slot 0).extent ∧
      w.st.usedExtents.count ⟨0x200004000, alignUp 16384 Page⟩ = 0 :=
    ⟨_, hrun, by decide +kernel, by decide +kernel, by decide +kernel⟩
  have hcarve : w.st.carve.slot 0 ∈ w.st.carveList :=
    CTable.mem_toList.mpr ⟨0, by rw [hn]; norm_num, rfl⟩
  rcases hrun.munmap_exact .idle hcarve haddr 16384 with ⟨hone, -⟩ | ⟨-, hres⟩
  · rw [hnone] at hone
    cases hone
  · exact ⟨w, hrun, by rw [hres], by rw [hres]; rfl⟩

end OrbisCompat.Mmap
