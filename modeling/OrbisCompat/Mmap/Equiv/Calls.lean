import OrbisCompat.Mmap.Equiv.Table

/-!
# The calls keep the table

`mapOwnedLocked_spec` and `munmap_table` are the specifications of the two calls that change the
table; `World.Ok.step` puts them together, and `Reaches.ok` carries the table over whole runs.
-/

namespace OrbisCompat.Mmap

open Extent Tile

variable {live : List Mapping}

/-! ### `__mmap` -/

/-- A block that `allocInLocked` takes is one more block in use. -/
theorem goodCarve_alloc {c c' : Carve} {want p : ℕ} (hc : GoodCarve c) (hpos : 0 < want)
    (hpage : Page ∣ want) (h : allocInLocked c want = some (c', p)) :
    0 < p ∧ GoodCarve c' ∧ c'.extent = c.extent ∧ c'.usedExtents.Perm (⟨p, want⟩ :: c.usedExtents) := by
  obtain ⟨pre, b, post, hsplit, hfree, hle, rfl, hblocks, hfew, hfields, -⟩ :=
    allocInLocked_eq_some hc.placed h
  have htiling := hc.tiling
  rw [hsplit] at htiling
  have hva : c'.va = c.va := by rw [hfields]
  have hsize : c'.size = c.size := by rw [hfields]
  have hperm : c'.usedExtents.Perm (⟨c.va + b.off, want⟩ :: c.usedExtents) := by
    unfold Carve.usedExtents
    rw [hblocks, hsplit, hva]
    exact (Tiling.usedOf_take hfree).map (Tile.extent c.va)
  refine ⟨Nat.add_pos_left hc.va_pos _, ⟨?_, ?_, ?_, ?_, ?_, hfew⟩, ?_, hperm⟩
  · rw [hva]; exact hc.va_pos
  · rw [hva]; exact hc.va_dvd
  · rw [hva, hsize]; exact hc.user
  · rw [hblocks, hsize]
    exact htiling.take hfree hpos hle hpage
  · rw [← Carve.length_blocks, hblocks]
    obtain ⟨m, hm⟩ := cut_head b want
    rw [hm]
    simp only [List.length_append, List.length_cons]
    omega
  · unfold Carve.extent
    rw [hva, hsize]

/-- `allocInLocked` on one carve-out of the table: a new live mapping, or no change. -/
theorem allocAt_spec {s s' : State} {i len out : ℕ} (T : Table s.carveList live)
    (hi : i < s.carves) (hlen : 1 ≤ len ∧ len ≤ maxLen)
    (h : s.allocAt i (alignUp len Page) = (s', out)) :
    out = 0 ∧ s' = s ∨ 0 < out ∧ Table s'.carveList (⟨out, len⟩ :: live) := by
  have hlt : len < 2 ^ 64 := by unfold maxLen Page at hlen; omega
  unfold State.allocAt at h
  cases halloc : allocInLocked (s.carve.slot i) (alignUp len Page) with
  | none =>
    rw [halloc] at h
    obtain ⟨rfl, rfl⟩ := Prod.mk.inj h
    exact Or.inl ⟨rfl, rfl⟩
  | some r =>
    obtain ⟨c', p⟩ := r
    rw [halloc] at h
    obtain ⟨rfl, rfl⟩ := Prod.mk.inj h
    have hsplit : s.carveList
        = s.carveList.take i ++ s.carve.slot i :: s.carveList.drop (i + 1) :=
      CTable.toList_split _ hi
    have hc : GoodCarve (s.carve.slot i) := T.good _ (by rw [hsplit]; simp)
    obtain ⟨hp, hgood, hext, hused⟩ :=
      goodCarve_alloc hc ((alignUp_page_pos hlt).mpr hlen) (page_dvd_alignUp len) halloc
    refine Or.inr ⟨hp, ?_⟩
    show Table (s.carve.set i c').toList _
    rw [CTable.toList_set_split _ _ hi]
    have T' := T
    rw [hsplit] at T'
    exact T'.modify hgood hext ((Table.used_replace hused).trans (T'.used.cons _))

theorem mapOwnedScan_spec {s s' : State} {len out : ℕ} (T : Table s.carveList live)
    (hlen : 1 ≤ len ∧ len ≤ maxLen) : ∀ is : List ℕ, (∀ i ∈ is, i < s.carves) →
      mapOwnedScan (alignUp len Page) is s = (s', out) →
      out = 0 ∧ s' = s ∨ 0 < out ∧ Table s'.carveList (⟨out, len⟩ :: live) := by
  intro is
  induction is with
  | nil =>
    intro _ h
    obtain ⟨rfl, rfl⟩ := Prod.mk.inj h
    exact Or.inl ⟨rfl, rfl⟩
  | cons i is ih =>
    intro his h
    unfold mapOwnedScan at h
    rcases ha : s.allocAt i (alignUp len Page) with ⟨s₁, out₁⟩
    rw [ha] at h
    dsimp only at h
    rcases allocAt_spec T (his i List.mem_cons_self) hlen ha with ⟨rfl, rfl⟩ | ⟨hpos, T₁⟩
    · rw [if_neg (by simp)] at h
      exact ih (fun j hj => his j (List.mem_cons_of_mem _ hj)) h
    · rw [if_pos (by omega)] at h
      obtain ⟨rfl, rfl⟩ := Prod.mk.inj h
      exact Or.inr ⟨hpos, T₁⟩

/-- **`addCarveLocked`** adds one carve-out that is free from end to end, or none. -/
theorem addCarveLocked_spec {pf : Platform} {s s' : State} {need : ℕ} {ok : Bool}
    (T : Table s.carveList live) (hpf : pf.Documented s.carveList)
    (h : addCarveLocked pf s need = (s', ok)) :
    Table s'.carveList live ∧ (ok = true → 0 < s'.carves) := by
  have hlen : 16384 ∣ alignUp (if need > CarveBytes then need else CarveBytes) DirectAlign := by
    rw [show DirectAlign = 2 ^ 21 from rfl]
    exact Nat.dvd_trans (by norm_num) (Word64.dvd_alignUp (k := 21) (by norm_num))
  unfold addCarveLocked at h
  by_cases hfull : s.carves ≥ MaxCarves
  · rw [if_pos hfull] at h
    obtain ⟨rfl, rfl⟩ := Prod.mk.inj h
    exact ⟨T, by simp⟩
  rw [if_neg hfull] at h
  dsimp only at h
  generalize alignUp (if need > CarveBytes then need else CarveBytes) DirectAlign = len at h hlen
  by_cases hcap : Word64.add s.heldBytes len > DirectCap
  · rw [if_pos hcap] at h
    obtain ⟨rfl, rfl⟩ := Prod.mk.inj h
    exact ⟨T, by simp⟩
  rw [if_neg hcap] at h
  cases hphys : pf.allocateDirectMemory len with
  | none =>
    rw [hphys] at h
    obtain ⟨rfl, rfl⟩ := Prod.mk.inj h
    exact ⟨T, by simp⟩
  | some phys =>
    have hpos : 0 < len := by
      rcases Nat.eq_zero_or_pos len with rfl | hpos
      · rw [hpf.allocate_zero] at hphys; cases hphys
      · exact hpos
    rw [hphys] at h
    dsimp only at h
    cases hva : pf.mapDirectMemory len phys with
    | none =>
      rw [hva] at h
      obtain ⟨rfl, rfl⟩ := Prod.mk.inj h
      exact ⟨T, by simp⟩
    | some va =>
      obtain ⟨hva0, huser⟩ := hpf.map_user len phys va hva
      have hfresh := hpf.map_fresh len phys va hva
      rw [hva] at h
      dsimp only at h
      split_ifs at h with hmask
      · obtain ⟨rfl, rfl⟩ := Prod.mk.inj h
        exact ⟨T, by simp⟩
      · obtain ⟨rfl, rfl⟩ := Prod.mk.inj h
        have hpage : Page ∣ va := by
          rw [show Page - 1 = 2 ^ 14 - 1 from rfl, Nat.and_two_pow_sub_one_eq_mod] at hmask
          unfold Page
          omega
        refine ⟨?_, fun _ => Nat.succ_pos _⟩
        show Table (CTable.toList _) live
        rw [State.carves, CTable.toList_push]
        exact T.push ⟨hva0, hpage, huser, Tiling.singleton hpos hlen, le_rfl,
          by unfold MaxBlocks Carve.n; dsimp only; omega⟩ rfl hfresh

/-- **The search of `mapOwned`**: a new live mapping, or none. -/
theorem mapOwnedFind_spec {pf : Platform} {s s' : State} {len out : ℕ}
    (T : Table s.carveList live) (hpf : pf.Documented s.carveList)
    (hlen : 1 ≤ len ∧ len ≤ maxLen) (h : mapOwnedFind pf s (alignUp len Page) = (s', out)) :
    out = 0 ∧ Table s'.carveList live ∨ 0 < out ∧ Table s'.carveList (⟨out, len⟩ :: live) := by
  unfold mapOwnedFind at h
  rcases hscan : mapOwnedScan (alignUp len Page) (List.range s.carves) s with ⟨s₁, out₁⟩
  rw [hscan] at h
  dsimp only at h
  rcases mapOwnedScan_spec T hlen _ (fun i hi => List.mem_range.mp hi) hscan with
    ⟨rfl, rfl⟩ | ⟨hpos, T₁⟩
  · rw [if_neg (by simp)] at h
    rcases hadd : addCarveLocked pf s₁ (alignUp len Page) with ⟨s₂, ok⟩
    obtain ⟨T₂, hn⟩ := addCarveLocked_spec T hpf hadd
    rw [hadd] at h
    cases ok with
    | false =>
      obtain ⟨rfl, rfl⟩ := Prod.mk.inj h
      exact Or.inl ⟨rfl, T₂⟩
    | true =>
      rcases allocAt_spec T₂ (Nat.sub_lt (hn rfl) Nat.one_pos) hlen h with ⟨rfl, rfl⟩ | hres
      · exact Or.inl ⟨rfl, T₂⟩
      · exact Or.inr hres
  · rw [if_pos (by omega)] at h
    obtain ⟨rfl, rfl⟩ := Prod.mk.inj h
    exact Or.inr ⟨hpos, T₁⟩

/-- The counters do not touch the table. -/
theorem mapOwnedLocked_spec {pf : Platform} {s s' : State} {len out : ℕ}
    (T : Table s.carveList live) (hpf : pf.Documented s.carveList)
    (hlen : 1 ≤ len ∧ len ≤ maxLen) (h : mapOwnedLocked pf s (alignUp len Page) = (s', out)) :
    out = 0 ∧ Table s'.carveList live ∨ 0 < out ∧ Table s'.carveList (⟨out, len⟩ :: live) := by
  unfold mapOwnedLocked at h
  rcases hfind : mapOwnedFind pf s (alignUp len Page) with ⟨s₁, out₁⟩
  have hspec := mapOwnedFind_spec T hpf hlen hfind
  rw [hfind] at h
  dsimp only at h
  split_ifs at h with h0
  · obtain ⟨rfl, rfl⟩ := Prod.mk.inj h
    exact hspec
  · obtain ⟨rfl, rfl⟩ := Prod.mk.inj h
    rw [not_not.mp h0] at hspec
    exact hspec

/-- **`mapOwned`** records a live mapping when it answers out of a carve-out. -/
theorem mapOwned_spec {pf : Platform} {s s' : State} {len : ℕ} {a : Answer ℕ}
    (T : Table s.carveList live) (hpf : pf.Documented s.carveList)
    (hlen : 1 ≤ len ∧ len ≤ maxLen) (h : mapOwned pf s len = (s', a)) :
    Table s'.carveList (if a.carved then ⟨a.value, len⟩ :: live else live) := by
  unfold mapOwned at h
  dsimp only at h
  rcases hl : mapOwnedLocked pf s (alignUp len Page) with ⟨s₁, out⟩
  rw [hl] at h
  dsimp only at h
  rcases mapOwnedLocked_spec T hpf hlen hl with ⟨rfl, T₁⟩ | ⟨hpos, T₁⟩
  · obtain ⟨rfl, rfl⟩ := Prod.mk.inj h
    exact T₁
  · rw [if_pos (by omega)] at h
    obtain ⟨rfl, rfl⟩ := Prod.mk.inj h
    exact T₁

/-- **`__mmap`** keeps the table, when no rounding of an owned request wraps or comes to nothing. -/
theorem mmap_table {direct : Bool} {pf : Platform} {w : World} {r : MapRequest}
    (T : w.Ok) (hpf : pf.Documented w.st.carveList)
    (hlen : isOwnedRequest r = true → 1 ≤ r.len ∧ r.len ≤ maxLen) :
    (w.mapped r.len (mmap direct pf w.st r)).Ok := by
  unfold mmap
  dsimp only
  split_ifs with howned
  · have hok := hlen (Bool.and_eq_true _ _ |>.mp howned).1
    generalize hs : ({ w.st with
      mmapCalls := bump w.st.mmapCalls 1, mmapCarved := bump w.st.mmapCarved 1 } : State) = s
    have hcarve : s.carveList = w.st.carveList := by rw [← hs]; rfl
    rcases hm : mapOwned pf s r.len with ⟨s', a⟩
    exact mapOwned_spec (by rw [hcarve]; exact T) (by rw [hcarve]; exact hpf) hok hm
  · exact T

/-! ### `__munmap` -/

/-- A block that `freeInLocked` releases is one block less in use. -/
theorem goodCarve_free {c c' : Carve} {p want : ℕ} (hc : GoodCarve c) (hp : p ∈ c.extent)
    (h : freeInLocked c p want = some c') :
    GoodCarve c' ∧ c'.extent = c.extent ∧ c.usedExtents.Perm (⟨p, want⟩ :: c'.usedExtents) := by
  obtain ⟨b, hb, hused, rfl, rfl⟩ := freeInLocked_eq_some hc hp h
  obtain ⟨pre, post, c'', hsplit, hfree, hblocks, hfields⟩ := freeInLocked_of_mem hc hb hused
  obtain rfl : c'' = c' := by rw [h] at hfree; exact (Option.some.inj hfree).symm
  have hva : c''.va = c.va := by rw [hfields]
  have hsize : c''.size = c.size := by rw [hfields]
  have htiling := hc.tiling
  rw [hsplit] at htiling
  have hperm : c.usedExtents.Perm (⟨c.va + b.off, b.size⟩ :: c''.usedExtents) := by
    unfold Carve.usedExtents
    rw [hblocks, hsplit, hva]
    exact (Tiling.usedOf_release hused).map (Tile.extent c.va)
  refine ⟨⟨?_, ?_, ?_, ?_, ?_, ?_⟩, ?_, hperm⟩
  · rw [hva]; exact hc.va_pos
  · rw [hva]; exact hc.va_dvd
  · rw [hva, hsize]; exact hc.user
  · rw [hblocks, hsize]; exact htiling.release
  · rw [← Carve.length_blocks, hblocks]
    exact Tiling.length_release_pos pre post b
  · have h1 := Tiling.length_release_le pre post b
    have h2 := hc.few
    rw [← Carve.length_blocks, hsplit] at h2
    rw [← Carve.length_blocks, hblocks]
    simp only [List.length_append, List.length_cons] at h2
    omega
  · unfold Carve.extent
    rw [hva, hsize]

/-- The search of `carveOfLocked` finds a carve-out that contains the address. -/
theorem carveOfLocked_eq_some {s : State} (T : Table s.carveList live) {p i : ℕ}
    (h : carveOfLocked s p = some i) : i < s.carves ∧ p ∈ (s.carve.slot i).extent := by
  obtain ⟨hi, hp, -⟩ := CTable.firstIdx_eq_some.mp h
  have hu := (T.good _ (CTable.mem_toList.mpr ⟨i, hi, rfl⟩)).user
  rw [Word64.add_of_lt (by unfold userEnd at hu; omega)] at hp
  refine ⟨hi, mem_iff.mpr ?_⟩
  simpa using hp

/-- The search finds the carve-out that an address lies in. -/
theorem carveOfLocked_of_mem {s : State} (T : Table s.carveList live) {c : Carve}
    (hc : c ∈ s.carveList) {p : ℕ} (hp : p ∈ c.extent) :
    ∃ i < s.carves, carveOfLocked s p = some i ∧ s.carve.slot i = c := by
  cases h : carveOfLocked s p with
  | none =>
    obtain ⟨j, hj, rfl⟩ := CTable.mem_toList.mp hc
    have hnot := CTable.firstIdx_eq_none.mp h j hj
    have hu := (T.good _ hc).user
    rw [Word64.add_of_lt (by unfold userEnd at hu; omega)] at hnot
    obtain ⟨h1, h2⟩ := mem_iff.mp hp
    simp only [Carve.extent_start, Carve.extent_len] at h1 h2
    simp [h1, h2] at hnot
  | some i =>
    obtain ⟨hi, hpi⟩ := carveOfLocked_eq_some T h
    exact ⟨i, hi, rfl, T.carve_unique (CTable.mem_toList.mpr ⟨i, hi, rfl⟩) hc hpi hp⟩

/-- **`__munmap`** hands the range to the platform when it is in no carve-out; otherwise it frees the
block of exactly that address and length, or counts an anomaly. -/
theorem munmap_inversion (pf : Platform) (s : State) (addr len : ℕ) :
    (carveOfLocked s addr = none ∧ munmap pf s addr len = ({ s with
        munmapCalls := bump s.munmapCalls 1, munmapFell := bump s.munmapFell 1 },
        ⟨pf.munmap addr len, false⟩)) ∨
      ∃ i, carveOfLocked s addr = some i ∧
        (freeInLocked (s.carve.slot i) addr (alignUp len Page) = none ∧
            munmap pf s addr len = ({ s with
              munmapCalls := bump s.munmapCalls 1, anomalies := bump s.anomalies 1,
              errno := EINVAL }, ⟨-1, true⟩) ∨
          ∃ c', freeInLocked (s.carve.slot i) addr (alignUp len Page) = some c' ∧
            munmap pf s addr len = ({ s with
              munmapCalls := bump s.munmapCalls 1, carve := s.carve.set i c'
              liveBytes := Word64.sub s.liveBytes (alignUp len Page)
              unmapCalls := bump s.unmapCalls 1
              munmapCarved := bump s.munmapCarved 1 }, ⟨0, true⟩)) := by
  have hof : carveOfLocked { s with munmapCalls := bump s.munmapCalls 1 } addr
      = carveOfLocked s addr := rfl
  unfold munmap
  dsimp only
  rw [hof]
  cases hcarve : carveOfLocked s addr with
  | none => exact Or.inl ⟨rfl, rfl⟩
  | some i =>
    refine Or.inr ⟨i, rfl, ?_⟩
    cases hf : freeInLocked (s.carve.slot i) addr (alignUp len Page) with
    | none => exact Or.inl ⟨rfl, by simp only [hf]⟩
    | some c' => exact Or.inr ⟨c', rfl, by simp only [hf]⟩

/-- What `__munmap` does to the table: nothing, or one block in use is released. -/
theorem munmap_cases {pf : Platform} {s s' : State} {addr len : ℕ} {a : Answer ℤ}
    (T : Table s.carveList live) (h : munmap pf s addr len = (s', a)) :
    (s'.carve = s.carve ∧ ¬ (a.carved = true ∧ a.value = 0)) ∨
      (a = ⟨0, true⟩ ∧ ∃ i c', i < s.carves ∧ addr ∈ (s.carve.slot i).extent ∧
        freeInLocked (s.carve.slot i) addr (alignUp len Page) = some c' ∧
        s'.carve = s.carve.set i c') := by
  rcases munmap_inversion pf s addr len with
    ⟨-, hres⟩ | ⟨i, hof, ⟨-, hres⟩ | ⟨c', hfree, hres⟩⟩ <;>
    (rw [hres] at h; obtain ⟨rfl, rfl⟩ := Prod.mk.inj h)
  · exact Or.inl ⟨rfl, by simp⟩
  · exact Or.inl ⟨rfl, by simp⟩
  · obtain ⟨hi, hp⟩ := carveOfLocked_eq_some T hof
    exact Or.inr ⟨rfl, i, c', hi, hp, hfree, rfl⟩

/-- The release of a block in the table. -/
theorem Table.free {s : State} {i p want : ℕ} {c' : Carve} (T : Table s.carveList live)
    (hi : i < s.carves) (hp : p ∈ (s.carve.slot i).extent)
    (h : freeInLocked (s.carve.slot i) p want = some c') {live' : List Mapping}
    (hlive : (live.map Mapping.extent).Perm (⟨p, want⟩ :: live'.map Mapping.extent)) :
    Table (s.carve.set i c').toList live' := by
  have hsplit : s.carveList
      = s.carveList.take i ++ s.carve.slot i :: s.carveList.drop (i + 1) :=
    CTable.toList_split _ hi
  have hc : GoodCarve (s.carve.slot i) := T.good _ (by rw [hsplit]; simp)
  obtain ⟨hgood, hext, hused⟩ := goodCarve_free hc hp h
  have T' := T
  rw [hsplit] at T'
  rw [CTable.toList_set_split _ _ hi]
  refine T'.modify hgood hext ?_
  exact ((Table.used_replace hused).symm.trans (T'.used.trans hlive)).cons_inv

/-- The blocks in use, when one carve-out has released one. -/
theorem usedExtents_free {s : State} {i p want : ℕ} {c' : Carve} (T : Table s.carveList live)
    (hi : i < s.carves) (hp : p ∈ (s.carve.slot i).extent)
    (h : freeInLocked (s.carve.slot i) p want = some c') :
    s.usedExtents.Perm (⟨p, want⟩ :: (s.carve.set i c').toList.flatMap Carve.usedExtents) := by
  obtain ⟨-, -, hperm⟩ := goodCarve_free (T.good _ (CTable.mem_toList.mpr ⟨i, hi, rfl⟩)) hp h
  unfold State.usedExtents State.carveList
  rw [CTable.toList_split _ hi, CTable.toList_set_split _ _ hi]
  exact Table.used_replace hperm

/-- **`__munmap`** keeps the table, whatever the address and the length. -/
theorem munmap_table {pf : Platform} {w : World} {addr len : ℕ} (T : w.Ok) :
    (w.unmapped addr (munmap pf w.st addr len)).Ok := by
  rcases hm : munmap pf w.st addr len with ⟨s', a⟩
  rcases munmap_cases T hm with ⟨hsame, hno⟩ | ⟨rfl, i, c', hi, hp, hfree, hset⟩
  · have hlive : (w.unmapped addr (s', a)).live = w.live := by
      refine if_neg ?_
      simpa using hno
    show Table s'.carve.toList _
    rw [hlive, hsame]
    exact T
  · show Table s'.carve.toList (w.live.eraseP fun m => m.ptr == addr)
    rw [hset]
    -- the block that is released is the live mapping at that address
    have hc : GoodCarve (w.st.carve.slot i) := T.good _ (CTable.mem_toList.mpr ⟨i, hi, rfl⟩)
    obtain ⟨-, -, hused⟩ := goodCarve_free hc hp hfree
    have hmem : (⟨addr, alignUp len Page⟩ : Extent) ∈ w.live.map Mapping.extent := by
      refine T.used.mem_iff.mp (List.mem_flatMap.mpr ⟨_, CTable.mem_toList.mpr ⟨i, hi, rfl⟩, ?_⟩)
      exact hused.mem_iff.mpr List.mem_cons_self
    obtain ⟨m, hmlive, hmext⟩ := List.mem_map.mp hmem
    have hmptr : m.ptr = addr := congrArg Extent.start hmext
    obtain ⟨m', l₁, l₂, -, hm', hlive, herase⟩ :=
      List.exists_of_eraseP (p := fun m => m.ptr == addr) hmlive (by simpa using hmptr)
    have hm'live : m' ∈ w.live := by rw [hlive]; simp
    have hm'ptr : m'.ptr = addr := by simpa using hm'
    have hpos : ∀ {m : Mapping}, m ∈ w.live → m.ptr ∈ m.extent := by
      intro m hm
      obtain ⟨c, hc, hmc⟩ := T.exists_carve hm
      exact ⟨le_rfl, Nat.lt_add_of_pos_right ((T.good c hc).usedExtent hmc).2.2⟩
    have hm'ext : m'.extent = ⟨addr, alignUp len Page⟩ := by
      rw [← hmext]
      refine T.extent_unique (List.mem_map_of_mem hm'live) (List.mem_map_of_mem hmlive)
        (hpos hm'live) ?_
      rw [hm'ptr, ← hmptr]
      exact hpos hmlive
    refine T.free hi hp hfree ?_
    rw [herase, hlive, ← hm'ext]
    exact (List.perm_middle.map Mapping.extent)

/-! ### Runs -/

/-- Every call keeps the table, when the owned requests are for `1` to `maxLen` bytes. -/
theorem World.Ok.step {direct : Bool} {w w' : World} {c : Call} (T : w.Ok)
    (hc : c.LenWithin maxLen) (h : Step direct w c w') : w'.Ok := by
  cases h with
  | mmap pf hpf _ => exact mmap_table T hpf hc
  | munmap pf _ _ => exact munmap_table T
  | madvise => exact T

/-- The table invariant is kept from any world on. -/
theorem World.Ok.run {direct : Bool} {w w' : World} {cs : List Call} (T : w.Ok)
    (h : Lts.Run (Lts.Guarded (fun _ c => Call.LenWithin maxLen c) (Step direct)) w cs w') :
    w'.Ok :=
  Lts.Run.preserves (P := World.Ok) (fun _ _ _ T hs => T.step hs.1 hs.2) h T

/-- The table invariant holds in every reachable world. -/
theorem Reaches.ok {direct : Bool} {mem : FlatMem} {cs : List Call} {w : World}
    (h : Reaches direct (Call.LenWithin maxLen) mem cs w) : w.Ok :=
  World.Ok.run (w := World.init mem) Table.empty h

theorem Call.LenWithin.mono {m n : ℕ} (hmn : m ≤ n) {c : Call} (h : c.LenWithin m) :
    c.LenWithin n := by
  cases c with
  | mmap r => exact fun howned => ⟨(h howned).1, (h howned).2.trans hmn⟩
  | _ => trivial

/-- Lengths up to `2 ^ 63` are no trouble. -/
theorem Reaches.ok_of_le {direct : Bool} {mem : FlatMem} {cs : List Call} {w : World}
    (h : Reaches direct (Call.LenWithin (2 ^ 63)) mem cs w) : w.Ok := by
  have hle : 2 ^ 63 ≤ maxLen := by unfold maxLen Page; norm_num
  exact Reaches.ok (Lts.Run.mono (fun _ _ _ hs => ⟨hs.1.mono hle, hs.2⟩) h)

end OrbisCompat.Mmap
