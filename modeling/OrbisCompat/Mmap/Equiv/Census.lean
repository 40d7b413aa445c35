import OrbisCompat.Mmap.Equiv.Interposer

/-!
# The census of the interposer

Five counters are kept beside the table.  `Census s` says that they agree with it: `liveBytes` is the
sum of the blocks in use, `mapCalls` minus `unmapCalls` their number, and `heldBytes` the sum of the
carve-outs, which stays under the cap (`Held`).

None of the sums wraps, because what is in use fits into the carve-outs (`Held.used_le`).  `peakLive` is
a running maximum of `liveBytes` (`Census.step`), so it is the greatest value on the way of a run.
-/

namespace OrbisCompat.Mmap

open Extent Tile

/-- The blocks in use of all carve-outs. -/
def State.usedBlocks (s : State) : List Block := s.carveList.flatMap fun c => usedOf c.blocks

/-- The sum of some lengths. -/
def totalLen (l : List Extent) : ℕ := (l.map Extent.len).sum

/-- The sizes of the carve-outs, added up, and the two limits. -/
structure Held (s : State) : Prop where
  held : s.heldBytes = (s.carveList.map Carve.size).sum
  cap : s.heldBytes ≤ DirectCap
  few : s.carves ≤ MaxCarves

/-- **The invariant.** -/
structure Census (s : State) : Prop where
  held : Held s
  live : s.liveBytes = totalLen s.usedExtents
  calls : Word64.sub s.mapCalls s.unmapCalls = s.usedExtents.length
  unmaps : s.unmapCalls < 2 ^ 64
  peak : s.liveBytes ≤ s.peakLive

variable {live : List Mapping} {pf : Platform} {s s' : State}

theorem totalLen_usedExtents (s : State) :
    totalLen s.usedExtents = (s.usedBlocks.map Tile.size).sum := by
  unfold totalLen State.usedExtents State.usedBlocks Carve.usedExtents
  rw [List.map_flatMap, List.map_flatMap]
  simp only [List.map_map]
  rfl

theorem length_usedExtents (s : State) : s.usedExtents.length = s.usedBlocks.length := by
  unfold State.usedExtents State.usedBlocks Carve.usedExtents
  simp only [List.length_flatMap, List.length_map]

theorem totalLen_perm {l m : List Extent} (h : l.Perm m) : totalLen l = totalLen m :=
  (h.map Extent.len).sum_nat

@[simp] theorem totalLen_cons (e : Extent) (l : List Extent) :
    totalLen (e :: l) = e.len + totalLen l := by simp [totalLen]

/-! ### What is held -/

/-- What is in use fits into the carve-outs. -/
theorem Held.used_le (H : Held s) (T : Table s.carveList live) :
    totalLen s.usedExtents ≤ DirectCap := by
  have hone : ∀ cs : List Carve, (∀ c ∈ cs, GoodCarve c) →
      totalLen (cs.flatMap Carve.usedExtents) ≤ (cs.map Carve.size).sum := by
    intro cs
    induction cs with
    | nil => intro _; exact le_rfl
    | cons c cs ih =>
      intro hall
      have hrest := ih fun d hd => hall d (List.mem_cons_of_mem _ hd)
      have hc := (hall c List.mem_cons_self).tiling.tiles.sum_usedOf_le
      have hmap : totalLen c.usedExtents = ((usedOf c.blocks).map Tile.size).sum := by
        unfold totalLen Carve.usedExtents
        rw [List.map_map]
        rfl
      unfold totalLen at hrest hmap ⊢
      rw [List.flatMap_cons, List.map_append, List.sum_append, List.map_cons, List.sum_cons, hmap]
      omega
  refine (hone s.carveList T.good).trans ?_
  rw [← H.held]
  exact H.cap

/-- Every block in use counts for at least one byte. -/
theorem Table.length_le_totalLen (T : Table s.carveList live) :
    s.usedExtents.length ≤ totalLen s.usedExtents := by
  have hpos : ∀ e ∈ s.usedExtents, 0 < e.len := fun e he => by
    obtain ⟨c, hc, he⟩ := List.mem_flatMap.mp he
    exact ((T.good c hc).usedExtent he).2.2
  generalize s.usedExtents = l at hpos
  induction l with
  | nil => exact le_rfl
  | cons e l ih =>
    have hrest := ih fun f hf => hpos f (List.mem_cons_of_mem _ hf)
    have he := hpos e List.mem_cons_self
    rw [totalLen_cons, List.length_cons]
    omega

/-! ### Finding a block -/

/-- What the search for a block may change: the table, what is held, and the kernel under it. -/
structure Found (s s' : State) : Prop where
  frame : s' = { s with carve := s'.carve, heldBytes := s'.heldBytes, kernel := s'.kernel }
  held : Held s → Held s'

theorem Found.refl (s : State) : Found s s := ⟨rfl, id⟩

theorem Found.trans {s₁ s₂ s₃ : State} (h : Found s₁ s₂) (h' : Found s₂ s₃) : Found s₁ s₃ := by
  refine ⟨?_, fun H => h'.held (h.held H)⟩
  rw [h'.frame, h.frame]

/-- The counters of the census stay as they were. -/
theorem Found.counters (h : Found s s') : s'.liveBytes = s.liveBytes ∧ s'.peakLive = s.peakLive ∧
    s'.mapCalls = s.mapCalls ∧ s'.unmapCalls = s.unmapCalls := by
  rw [h.frame]
  exact ⟨rfl, rfl, rfl, rfl⟩

theorem allocInLocked_size {c c' : Carve} {len p : ℕ} (h : allocInLocked c len = some (c', p)) :
    c'.size = c.size := by
  obtain ⟨i, -, hi⟩ := Option.map_eq_some_iff.mp h
  dsimp only at hi
  split_ifs at hi <;> (obtain ⟨rfl, -⟩ := Prod.mk.inj hi; rfl)

theorem allocAt_found {i want out : ℕ} (h : s.allocAt i want = (s', out)) : Found s s' := by
  unfold State.allocAt at h
  cases halloc : allocInLocked (s.carve.slot i) want with
  | none =>
    rw [halloc] at h
    obtain ⟨rfl, -⟩ := Prod.mk.inj h
    exact Found.refl s
  | some r =>
    obtain ⟨c', p⟩ := r
    rw [halloc] at h
    obtain ⟨rfl, -⟩ := Prod.mk.inj h
    -- a block changes hands, and no carve-out its size
    have hsizes : (s.carve.set i c').toList.map Carve.size = s.carveList.map Carve.size :=
      CTable.map_toList_set (allocInLocked_size halloc)
    exact ⟨rfl, fun H => ⟨H.held.trans (congrArg List.sum hsizes).symm, H.cap, H.few⟩⟩

theorem mapOwnedScan_found {want out : ℕ} : ∀ (is : List ℕ) {s : State},
    mapOwnedScan want is s = (s', out) → Found s s' := by
  intro is
  induction is with
  | nil =>
    intro s h
    obtain ⟨rfl, -⟩ := Prod.mk.inj h
    exact Found.refl _
  | cons i is ih =>
    intro s h
    unfold mapOwnedScan at h
    rcases ha : s.allocAt i want with ⟨s₁, out₁⟩
    rw [ha] at h
    dsimp only at h
    split_ifs at h
    · obtain ⟨rfl, -⟩ := Prod.mk.inj h
      exact allocAt_found ha
    · exact (allocAt_found ha).trans (ih h)

/-- The length of a new carve-out does not wrap when the request is at most `2 ^ 63`. -/
theorem carveLen_le {need : ℕ} (h : need ≤ 2 ^ 63) :
    alignUp (if need > CarveBytes then need else CarveBytes) DirectAlign ≤ 2 ^ 63 := by
  have hmax : (if need > CarveBytes then need else CarveBytes) ≤ 2 ^ 63 := by
    unfold CarveBytes
    split_ifs <;> omega
  generalize (if need > CarveBytes then need else CarveBytes) = n at hmax
  have hup : alignUp n DirectAlign = (n + (2 ^ 21 - 1)) / 2 ^ 21 * 2 ^ 21 :=
    Word64.alignUp_of_lt (k := 21) (by norm_num) (by omega)
  rw [hup]
  omega

/-- **`addCarveLocked`** asks for what keeps it under the cap. -/
theorem addCarveLocked_found {need : ℕ} {ok : Bool} (hneed : need ≤ 2 ^ 63)
    (h : addCarveLocked pf s need = (s', ok)) : Found s s' := by
  have hle := carveLen_le hneed
  unfold addCarveLocked at h
  by_cases hfull : s.carves ≥ MaxCarves
  · rw [if_pos hfull] at h
    obtain ⟨rfl, -⟩ := Prod.mk.inj h
    exact Found.refl s
  rw [if_neg hfull] at h
  dsimp only at h
  generalize alignUp (if need > CarveBytes then need else CarveBytes) DirectAlign = len at h hle
  by_cases hcap : Word64.add s.heldBytes len > DirectCap
  · rw [if_pos hcap] at h
    obtain ⟨rfl, -⟩ := Prod.mk.inj h
    exact Found.refl s
  rw [if_neg hcap] at h
  cases hphys : pf.allocateDirectMemory len with
  | none =>
    rw [hphys] at h
    obtain ⟨rfl, -⟩ := Prod.mk.inj h
    exact Found.refl s
  | some phys =>
    rw [hphys] at h
    dsimp only at h
    cases hva : pf.mapDirectMemory len phys with
    | none =>
      rw [hva] at h
      obtain ⟨rfl, -⟩ := Prod.mk.inj h
      exact ⟨rfl, fun H => ⟨H.held, H.cap, H.few⟩⟩
    | some va =>
      rw [hva] at h
      dsimp only at h
      split_ifs at h with hmask <;> obtain ⟨rfl, -⟩ := Prod.mk.inj h
      · exact ⟨rfl, fun H => ⟨H.held, H.cap, H.few⟩⟩
      · refine ⟨rfl, fun H => ⟨?_, Nat.not_lt.mp hcap, Nat.lt_of_not_le hfull⟩⟩
        have hsum : Word64.add s.heldBytes len = s.heldBytes + len := by
          have := H.cap
          unfold DirectCap MaxCarves CarveBytes at this
          exact Word64.add_of_lt (by omega)
        show Word64.add s.heldBytes len = ((CTable.toList _).map Carve.size).sum
        rw [State.carves, CTable.toList_push, List.map_append, List.sum_append, hsum, H.held,
          List.map_singleton, List.sum_singleton]
        rfl

theorem mapOwnedFind_found {want out : ℕ} (hwant : want ≤ 2 ^ 63)
    (h : mapOwnedFind pf s want = (s', out)) : Found s s' := by
  unfold mapOwnedFind at h
  rcases hscan : mapOwnedScan want (List.range s.carves) s with ⟨s₁, out₁⟩
  have h₁ := mapOwnedScan_found _ hscan
  rw [hscan] at h
  dsimp only at h
  split_ifs at h
  · obtain ⟨rfl, -⟩ := Prod.mk.inj h
    exact h₁
  · rcases hadd : addCarveLocked pf s₁ want with ⟨s₂, ok⟩
    have h₂ := h₁.trans (addCarveLocked_found hwant hadd)
    rw [hadd] at h
    cases ok with
    | false =>
      obtain ⟨rfl, -⟩ := Prod.mk.inj h
      exact h₂
    | true => exact h₂.trans (allocAt_found h)

/-! ### Counting -/

/-- One more call on the left of the difference. -/
theorem sub_add_one {a b n : ℕ} (hb : b < 2 ^ 64) (h : Word64.sub a b = n) (hn : n + 1 < 2 ^ 64) :
    Word64.sub (bump a 1) b = n + 1 := by
  unfold bump Word64.add
  unfold Word64.sub at h ⊢
  omega

/-- One more call on the right of the difference. -/
theorem sub_one_more {a b n : ℕ} (h : Word64.sub a b = n + 1) :
    Word64.sub a (bump b 1) = n := by
  unfold bump Word64.add
  unfold Word64.sub at h ⊢
  omega

/-- The census reads the table and the counters, and nothing else. -/
theorem Census.congr (C : Census s) (hcarve : s'.carve = s.carve)
    (hheld : s'.heldBytes = s.heldBytes) (hlive : s'.liveBytes = s.liveBytes)
    (hmaps : s'.mapCalls = s.mapCalls) (hunmaps : s'.unmapCalls = s.unmapCalls)
    (hpeak : s'.peakLive = s.peakLive) : Census s' := by
  obtain ⟨⟨h1, h2, h3⟩, h4, h5, h6, h7⟩ := C
  refine ⟨⟨?_, ?_, ?_⟩, ?_, ?_, ?_, ?_⟩
  · rw [hheld, State.carveList, hcarve]; exact h1
  · rw [hheld]; exact h2
  · rw [State.carves, hcarve]; exact h3
  · rw [hlive, State.usedExtents, State.carveList, hcarve]; exact h4
  · rw [hmaps, hunmaps, State.usedExtents, State.carveList, hcarve]; exact h5
  · rw [hunmaps]; exact h6
  · rw [hlive, hpeak]; exact h7

@[simp] theorem noteLive_liveBytes (s : State) (n : ℕ) :
    (s.noteLive n).liveBytes = bump s.liveBytes n := rfl

theorem noteLive_peakLive (s : State) (n : ℕ) :
    (s.noteLive n).peakLive = max s.peakLive (s.noteLive n).liveBytes := by
  rw [noteLive_liveBytes]
  unfold State.noteLive
  generalize bump s.liveBytes n = now
  dsimp only
  split_ifs <;> omega

/-- **A block that was found**, counted. -/
theorem Census.noteLive (C : Census s) (hf : Found s s') (T' : Table s'.carveList live)
    {e : Extent} (hused : s'.usedExtents.Perm (e :: s.usedExtents)) :
    Census (s'.noteLive e.len) ∧ (s'.noteLive e.len).peakLive
      = max s.peakLive (s'.noteLive e.len).liveBytes := by
  have H := hf.held C.held
  obtain ⟨hlive, hpeak, hmaps, hunmaps⟩ := hf.counters
  have htotal : totalLen s'.usedExtents = e.len + totalLen s.usedExtents := by
    rw [totalLen_perm hused, totalLen_cons]
  have hcount : s'.usedExtents.length = s.usedExtents.length + 1 := by
    rw [hused.length_eq, List.length_cons]
  have hfits : totalLen s'.usedExtents < 2 ^ 63 :=
    lt_of_le_of_lt (H.used_le T') (by unfold DirectCap MaxCarves CarveBytes; norm_num)
  have hfew := T'.length_le_totalLen
  have hnow : (s'.noteLive e.len).liveBytes = totalLen s'.usedExtents := by
    have hlt : s.liveBytes + e.len < 2 ^ 64 := by
      rw [C.live]
      omega
    rw [noteLive_liveBytes, hlive, bump, Word64.add_of_lt hlt, C.live, htotal, Nat.add_comm]
  have hmax := noteLive_peakLive s' e.len
  refine ⟨⟨⟨H.held, H.cap, H.few⟩, hnow, ?_, ?_, ?_⟩, ?_⟩
  · show Word64.sub (bump s'.mapCalls 1) s'.unmapCalls = s'.usedExtents.length
    rw [hmaps, hunmaps, hcount]
    exact sub_add_one C.unmaps C.calls (by omega)
  · show s'.unmapCalls < 2 ^ 64
    rw [hunmaps]
    exact C.unmaps
  · rw [hmax]
    exact Nat.le_max_right _ _
  · rw [hmax, hpeak]

/-- A search that finds nothing, counted. -/
theorem Census.noteFallback (C : Census s) (hf : Found s s')
    (hused : s'.usedExtents.Perm s.usedExtents) (n : ℕ) :
    Census (s'.noteFallback n) ∧ (s'.noteFallback n).peakLive
      = max s.peakLive (s'.noteFallback n).liveBytes := by
  have H := hf.held C.held
  obtain ⟨hlive, hpeak, hmaps, hunmaps⟩ := hf.counters
  refine ⟨⟨⟨H.held, H.cap, H.few⟩, ?_, ?_, ?_, ?_⟩, ?_⟩
  · show s'.liveBytes = totalLen s'.usedExtents
    rw [hlive, totalLen_perm hused, C.live]
  · show Word64.sub s'.mapCalls s'.unmapCalls = s'.usedExtents.length
    rw [hmaps, hunmaps, hused.length_eq, C.calls]
  · show s'.unmapCalls < 2 ^ 64
    rw [hunmaps]
    exact C.unmaps
  · show s'.liveBytes ≤ s'.peakLive
    rw [hlive, hpeak]
    exact C.peak
  · show s'.peakLive = max s.peakLive s'.liveBytes
    rw [hlive, hpeak]
    exact (Nat.max_eq_left C.peak).symm

/-! ### The calls -/

/-- **The part of `mapOwned` under the lock.** -/
theorem Census.mapOwnedLocked (C : Census s) (T : Table s.carveList live)
    (hpf : pf.Documented s.carveList) {len out : ℕ} (hlen : 1 ≤ len ∧ len ≤ 2 ^ 63)
    (h : mapOwnedLocked pf s (alignUp len Page) = (s', out)) :
    Census s' ∧ s'.peakLive = max s.peakLive s'.liveBytes := by
  have hwant : alignUp len Page ≤ 2 ^ 63 := by
    rw [alignUp_page]
    omega
  have hmaxLen : 1 ≤ len ∧ len ≤ maxLen := by
    unfold maxLen Page
    omega
  unfold Mmap.mapOwnedLocked at h
  rcases hfind : mapOwnedFind pf s (alignUp len Page) with ⟨s₁, out₁⟩
  have hf := mapOwnedFind_found hwant hfind
  rw [hfind] at h
  dsimp only at h
  rcases mapOwnedFind_spec T hpf hmaxLen hfind with ⟨rfl, T₁⟩ | ⟨hpos, T₁⟩
  · rw [if_neg (by simp)] at h
    obtain ⟨rfl, -⟩ := Prod.mk.inj h
    exact C.noteFallback hf (T₁.used.trans T.used.symm) _
  · rw [if_pos (by omega)] at h
    obtain ⟨rfl, -⟩ := Prod.mk.inj h
    exact C.noteLive (e := ⟨out₁, alignUp len Page⟩) hf T₁ (T₁.used.trans (T.used.symm.cons _))

/-- **`__mmap`.** -/
theorem Census.mmap (C : Census s) (T : Table s.carveList live) (hpf : pf.Documented s.carveList)
    {direct : Bool} {r : MapRequest} (hlen : isOwnedRequest r = true → 1 ≤ r.len ∧ r.len ≤ 2 ^ 63) :
    Census (mmap direct pf s r).1 ∧
      (mmap direct pf s r).1.peakLive = max s.peakLive (mmap direct pf s r).1.liveBytes := by
  unfold Mmap.mmap
  dsimp only
  split_ifs with howned
  · have hok := hlen (Bool.and_eq_true _ _ |>.mp howned).1
    -- the counters of calls are not part of the census
    generalize hs₁ : ({ s with
      mmapCalls := bump s.mmapCalls 1, mmapCarved := bump s.mmapCarved 1 } : State) = s₁
    have C₁ : Census s₁ := by
      subst hs₁
      exact C.congr rfl rfl rfl rfl rfl rfl
    have hcarves : s₁.carveList = s.carveList := by rw [← hs₁]; rfl
    have hpeak : s₁.peakLive = s.peakLive := by rw [← hs₁]
    rw [← hcarves] at T hpf
    rw [← hpeak]
    unfold mapOwned
    dsimp only
    rcases hl : Mmap.mapOwnedLocked pf s₁ (alignUp r.len Page) with ⟨s₂, out⟩
    obtain ⟨C₂, hmax⟩ := C₁.mapOwnedLocked T hpf hok hl
    dsimp only
    split_ifs
    · exact ⟨C₂.congr rfl rfl rfl rfl rfl rfl, hmax⟩
    · exact ⟨C₂, hmax⟩
  · exact ⟨C.congr rfl rfl rfl rfl rfl rfl, (Nat.max_eq_left C.peak).symm⟩

theorem freeInLocked_size {c c' : Carve} {p len : ℕ} (h : freeInLocked c p len = some c') :
    c'.size = c.size := by
  unfold freeInLocked at h
  dsimp only at h
  split_ifs at h
  obtain rfl := Option.some.inj h
  rfl

/-- **`__munmap`.** -/
theorem Census.munmap (C : Census s) (T : Table s.carveList live) (addr len : ℕ) :
    Census (munmap pf s addr len).1 ∧
      (munmap pf s addr len).1.peakLive = max s.peakLive (munmap pf s addr len).1.liveBytes := by
  have hsame := (Nat.max_eq_left C.peak).symm
  rcases munmap_inversion pf s addr len with
    ⟨-, hres⟩ | ⟨i, hof, ⟨-, hres⟩ | ⟨c', hfree, hres⟩⟩ <;> rw [hres]
  · exact ⟨C.congr rfl rfl rfl rfl rfl rfl, hsame⟩
  · exact ⟨C.congr rfl rfl rfl rfl rfl rfl, hsame⟩
  · obtain ⟨hi, hp⟩ := carveOfLocked_eq_some T hof
    have hperm := usedExtents_free T hi hp hfree
    generalize hwant : alignUp len Page = want at hperm
    have htotal := totalLen_perm hperm
    have hcount := hperm.length_eq
    rw [totalLen_cons, show (⟨addr, want⟩ : Extent).len = want from rfl] at htotal
    rw [List.length_cons] at hcount
    have hfits : totalLen s.usedExtents < 2 ^ 63 :=
      lt_of_le_of_lt (C.held.used_le T) (by unfold DirectCap MaxCarves CarveBytes; norm_num)
    have hlive : Word64.sub s.liveBytes want
        = totalLen ((s.carve.set i c').toList.flatMap Carve.usedExtents) := by
      rw [C.live, Word64.sub_of_le (by omega) (by omega)]
      omega
    have hle : Word64.sub s.liveBytes want ≤ s.peakLive := by
      have := C.peak
      rw [C.live] at this
      omega
    have hsizes : (s.carve.set i c').toList.map Carve.size = s.carveList.map Carve.size :=
      CTable.map_toList_set (freeInLocked_size hfree)
    have hcalls := C.calls
    rw [hcount] at hcalls
    refine ⟨⟨⟨C.held.held.trans (congrArg List.sum hsizes).symm, C.held.cap, C.held.few⟩, hlive,
      sub_one_more hcalls, Word64.add_lt _ _, hle⟩, (Nat.max_eq_left hle).symm⟩

/-! ### Runs -/

theorem census_init (mem : FlatMem) : Census (State.init mem) where
  held := ⟨rfl, Nat.zero_le _, Nat.zero_le _⟩
  live := rfl
  calls := by
    show Word64.sub 0 0 = 0
    norm_num [Word64.sub]
  unmaps := by norm_num [State.init]
  peak := le_rfl

/-- What every call keeps, and what it does to the peak. -/
theorem Census.step {direct : Bool} {w w' : World} {c : Call} (T : w.Ok) (C : Census w.st)
    (hc : c.LenWithin (2 ^ 63)) (h : Step direct w c w') :
    Census w'.st ∧ w'.st.peakLive = max w.st.peakLive w'.st.liveBytes := by
  cases h with
  | mmap pf hpf _ => exact C.mmap T hpf hc
  | munmap pf _ _ => exact C.munmap T _ _
  | madvise => exact ⟨C, (Nat.max_eq_left C.peak).symm⟩

/-- The calls of a run with owned requests of `1` to `2 ^ 63` bytes. -/
abbrev BoundedStep (direct : Bool) : World → Call → World → Prop :=
  Lts.Guarded (fun _ c => Call.LenWithin (2 ^ 63) c) (Step direct)

theorem BoundedStep.keeps {direct : Bool} (w : World) (c : Call) (w' : World)
    (h : w.Ok ∧ Census w.st) (hs : BoundedStep direct w c w') : w'.Ok ∧ Census w'.st := by
  have hle : 2 ^ 63 ≤ maxLen := by unfold maxLen Page; norm_num
  exact ⟨h.1.step (hs.1.mono hle) hs.2, (h.2.step h.1 hs.1 hs.2).1⟩

theorem Reaches.census_ok {direct : Bool} {mem : FlatMem} {cs : List Call} {w : World}
    (h : Reaches direct (Call.LenWithin (2 ^ 63)) mem cs w) : w.Ok ∧ Census w.st :=
  Lts.Run.preserves (P := fun w => w.Ok ∧ Census w.st) BoundedStep.keeps h
    ⟨Table.empty, census_init mem⟩

/-- **The census adds up.**  In every reachable world the counters agree with the block lists, what is
held is under the cap, and `peakLive` is the greatest `liveBytes` on the way. -/
theorem Reaches.census {direct : Bool} {mem : FlatMem} {cs : List Call} {w : World}
    (h : Reaches direct (Call.LenWithin (2 ^ 63)) mem cs w) :
    w.st.liveBytes = (w.st.usedBlocks.map Tile.size).sum ∧
    Word64.sub w.st.mapCalls w.st.unmapCalls = w.st.usedBlocks.length ∧
    w.st.heldBytes = (w.st.carveList.map Carve.size).sum ∧
    w.st.heldBytes ≤ DirectCap ∧ w.st.carveList.length ≤ MaxCarves ∧
    IsGreatest {n | ∃ u, Lts.Visits (BoundedStep direct) (World.init mem) cs w u ∧
      u.st.liveBytes = n} w.st.peakLive := by
  obtain ⟨-, C⟩ := h.census_ok
  refine ⟨?_, ?_, C.held.held, C.held.cap, ?_, ?_⟩
  · rw [C.live, totalLen_usedExtents]
  · rw [C.calls, length_usedExtents]
  · rw [State.carveList, CTable.length_toList]
    exact C.held.few
  · exact Lts.Run.isGreatest (I := fun w => w.Ok ∧ Census w.st) (f := fun w => w.st.liveBytes)
      (g := fun w => w.st.peakLive) BoundedStep.keeps
      (fun w c w' hI hs => (hI.2.step hI.1 hs.1 hs.2).2) h ⟨Table.empty, census_init mem⟩ rfl

/-- Two pages are mapped on an idle console and unmapped again: nothing is live, and two pages were. -/
theorem census_after_munmap : ∃ w, Reaches true (Call.LenWithin (2 ^ 63)) (fun _ => 0)
      [.mmap (ownedRequest 20000), .munmap 0x200000000 20000] w ∧
    (w.st.usedBlocks.map Tile.size).sum = 0 ∧ w.st.liveBytes = (w.st.usedBlocks.map Tile.size).sum ∧
    w.st.peakLive = 32768 ∧ w.st.heldBytes = (w.st.carveList.map Carve.size).sum := by
  have hmap : Step true (World.init fun _ => 0) (.mmap (ownedRequest 20000)) _ :=
    .mmap .idle Platform.idle_documented (by decide)
  have hunmap : Step true _ (.munmap 0x200000000 20000) _ :=
    .munmap (w := (World.init fun _ => 0).mapped 20000
      (mmap true .idle (World.init fun _ => 0).st (ownedRequest 20000))) .idle (by decide) (by decide)
  have hrun : Reaches true (Call.LenWithin (2 ^ 63)) (fun _ => 0)
      [.mmap (ownedRequest 20000), .munmap 0x200000000 20000] _ :=
    .cons ⟨fun _ => by decide, hmap⟩ (.cons ⟨trivial, hunmap⟩ (.nil _))
  obtain ⟨hlive, -, hheld, -⟩ := hrun.census
  exact ⟨_, hrun, by decide +kernel, hlive, by decide +kernel, hheld⟩

end OrbisCompat.Mmap
