import OrbisCompat.Mmap.Equiv.Calls

/-!
# The interposer over whole runs

The blocks of every carve-out tile it in every reachable world (`Reaches.blocks_tile`), and a mapping
that is served from a carve-out is a safe one exactly when its length is from `1` to `maxLen`
(`Reaches.safeMapping_iff`): otherwise the length in whole pages is zero, and the block that is
handed out is empty.
-/

namespace OrbisCompat.Mmap

open Extent Tile

/-- A console that grants one carve-out, at a fixed address, and nothing else. -/
def Platform.idle : Platform where
  allocateDirectMemory := fun len => if len = 0 then none else some 0
  mapDirectMemory := fun len _ => if len ≤ 0x10000000000 then some 0x200000000 else none
  mmap := fun _ => 2 ^ 64 - 1
  munmap := fun _ _ => -1
  madvise := fun _ _ _ => -1

theorem Platform.idle_documented : Platform.idle.Documented [] where
  allocate_zero := rfl
  map_user := by
    intro len phys va h
    unfold idle at h
    dsimp only at h
    split_ifs at h with hlen
    obtain rfl := Option.some.inj h
    unfold userEnd
    omega
  map_fresh := by simp

/-- A platform that has no direct memory to give. -/
def Platform.refusing : Platform where
  allocateDirectMemory := fun _ => none
  mapDirectMemory := fun _ _ => none
  mmap := fun _ => 0x300000000
  munmap := fun _ _ => 0
  madvise := fun _ _ _ => 0

theorem Platform.refusing_documented (cs : List Carve) : Platform.refusing.Documented cs :=
  ⟨rfl, fun _ _ _ h => (by cases h), fun _ _ _ h => (by cases h)⟩

/-- musl's request for `len` bytes. -/
def ownedRequest (len : ℕ) : MapRequest := ⟨0, len, OwnedProt, OwnedFlags, -1, 0⟩

/-! ### The block lists -/

/-- **The invariant of the block lists.**  In every reachable world the blocks of a carve-out follow
one another from its start to its end, in whole pages and coalesced, and a carve-out without live
mappings is one free block. -/
theorem Reaches.blocks_tile {direct : Bool} {mem : FlatMem} {cs : List Call} {w : World}
    (h : Reaches direct (Call.LenWithin (2 ^ 63)) mem cs w) : ∀ c ∈ w.st.carveList,
      1 ≤ c.n ∧ c.n ≤ MaxBlocks ∧ Tiles 0 c.blocks c.size ∧
      (∀ b ∈ c.blocks, 0 < b.size ∧ 16384 ∣ b.size) ∧
      (c.blocks.IsChain fun a b => a.used = true ∨ b.used = true) ∧
      ((∀ m ∈ w.live, ¬ Within m.extent ⟨c.va, c.size⟩) → c.blocks = [⟨0, c.size, false⟩]) := by
  have T : w.Ok := h.ok_of_le
  intro c hc
  have hg := T.good c hc
  refine ⟨hg.nonempty, hg.few, hg.tiling.tiles, hg.tiling.sizes, hg.tiling.coalesced,
    fun hdead => ?_⟩
  have hne : c.blocks ≠ [] := by
    intro hnil
    have := hg.nonempty
    rw [← Carve.length_blocks, hnil] at this
    simp at this
  refine hg.tiling.eq_singleton hne fun b hb => ?_
  -- a block in use would be a live mapping inside the carve-out
  by_contra hused
  have hmem : b.extent c.va ∈ c.usedExtents :=
    List.mem_map_of_mem (List.mem_filter.mpr ⟨hb, by simpa using hused⟩)
  have hlive := T.used.mem_iff.mp (List.mem_flatMap.mpr ⟨c, hc, hmem⟩)
  obtain ⟨m, hm, hext⟩ := List.mem_map.mp hlive
  refine hdead m hm ?_
  rw [hext]
  exact (hg.usedExtent hmem).1

/-- On an idle console a mapping of two pages is made and unmapped, and the invariant holds
afterwards. -/
theorem blocks_tile_after_munmap : ∃ w, Reaches true (Call.LenWithin (2 ^ 63)) (fun _ => 0)
      [.mmap (ownedRequest 20000), .munmap 0x200000000 20000] w ∧
    w.st.carveList.length = 1 ∧ ∀ c ∈ w.st.carveList, Tiles 0 c.blocks c.size := by
  have h1 : Step true (World.init fun _ => 0) (.mmap (ownedRequest 20000)) _ :=
    .mmap .idle Platform.idle_documented (by decide)
  have h2 : Step true _ (.munmap 0x200000000 20000) _ :=
    .munmap (w := (World.init fun _ => 0).mapped 20000
      (mmap true .idle (World.init fun _ => 0).st (ownedRequest 20000))) .idle (by decide) (by decide)
  have hrun : Reaches true (Call.LenWithin (2 ^ 63)) (fun _ => 0)
      [.mmap (ownedRequest 20000), .munmap 0x200000000 20000] _ :=
    .cons ⟨fun _ => by decide, h1⟩ (.cons ⟨trivial, h2⟩ (.nil _))
  exact ⟨_, hrun, by decide, fun c hc => (Reaches.blocks_tile hrun c hc).2.2.1⟩

/-! ### Mappings that are safe to use -/

/-- A mapping that was just served, with the mappings that were live before: page aligned, inside a
carve-out, not empty, apart from the others, and a later `__munmap` of it frees exactly its block. -/
structure SafeMapping (direct : Bool) (s : State) (live : List Mapping) (m : Mapping) : Prop where
  aligned : Page ∣ m.ptr
  inside : ∃ c ∈ s.carveList, Within ⟨m.ptr, m.len⟩ c.extent ∧ Within m.extent c.extent
  nonempty : 0 < m.extent.len
  apart : ∀ m' ∈ live, Apart m.extent m'.extent
  unmaps : ∀ cs w,
    Lts.Run (Lts.Guarded (fun _ c => Call.LenWithin maxLen c) (Step direct)) ⟨s, m :: live⟩ cs w →
      m ∈ w.live → ∀ pf, ∃ s', munmap pf w.st m.ptr m.len = (s', ⟨0, true⟩) ∧
        w.st.usedExtents.Perm (m.extent :: s'.usedExtents)

/-- `__munmap` of a live mapping succeeds, and its block is the one that is no longer in use. -/
theorem munmap_live {pf : Platform} {s : State} {live : List Mapping} {m : Mapping}
    (T : Table s.carveList live) (hm : m ∈ live) :
    ∃ s', munmap pf s m.ptr m.len = (s', ⟨0, true⟩) ∧
      s.usedExtents.Perm (m.extent :: s'.usedExtents) := by
  obtain ⟨c, hc, hmem⟩ := T.exists_carve hm
  have hg := T.good c hc
  obtain ⟨hwithin, -, hpos⟩ := hg.usedExtent hmem
  have hptr : m.ptr ∈ c.extent := hwithin.mem ⟨le_rfl, Nat.lt_add_of_pos_right hpos⟩
  obtain ⟨b, hb, hext⟩ := List.mem_map.mp hmem
  obtain ⟨hbc, hused⟩ := List.mem_filter.mp hb
  have hstart : c.va + b.off = m.ptr := congrArg Extent.start hext
  have hlen : b.size = alignUp m.len Page := congrArg Extent.len hext
  obtain ⟨pre, post, c', -, hfree, -, -⟩ := freeInLocked_of_mem hg hbc hused
  rw [hstart, hlen] at hfree
  obtain ⟨i, hi, hcarve, rfl⟩ := carveOfLocked_of_mem T hc hptr
  have hperm := usedExtents_free T hi hptr hfree
  have hcarve' : carveOfLocked { s with munmapCalls := bump s.munmapCalls 1 } m.ptr = some i :=
    hcarve
  unfold munmap
  dsimp only
  rw [hcarve']
  dsimp only
  rw [hfree]
  exact ⟨_, rfl, hperm⟩

theorem safeMapping_of_table {direct : Bool} {s : State} {live : List Mapping} {m : Mapping}
    (T : Table s.carveList (m :: live)) (hlen : m.len ≤ maxLen) :
    SafeMapping direct s live m := by
  obtain ⟨c, hc, hmem⟩ := T.exists_carve List.mem_cons_self
  obtain ⟨hwithin, hpage, hpos⟩ := (T.good c hc).usedExtent hmem
  have hle : m.len ≤ m.extent.len := le_alignUp_page hlen
  refine ⟨hpage, ⟨c, hc, ?_, hwithin⟩, hpos, fun m' hm' => ?_, fun cs w hrun hlive pf => ?_⟩
  · obtain ⟨h1, h2⟩ := hwithin
    refine ⟨h1, le_trans ?_ h2⟩
    show m.ptr + m.len ≤ m.ptr + m.extent.len
    omega
  · exact (List.pairwise_cons.mp T.pairwise).1 _ (List.mem_map_of_mem hm')
  · have T' : w.Ok := World.Ok.run (w := ⟨s, m :: live⟩) T hrun
    exact munmap_live T' hlive

/-- **Which lengths are safe.**  In a world reached with lengths from `1` to `maxLen`, an owned
request that is served from a carve-out gets a safe mapping if and only if its length is in that
range too. -/
theorem Reaches.safeMapping_iff {direct : Bool} {mem : FlatMem} {cs : List Call} {w : World}
    (h : Reaches direct (Call.LenWithin maxLen) mem cs w) {pf : Platform}
    (hpf : pf.Documented w.st.carveList) {r : MapRequest} (hlen : r.len < 2 ^ 64) {s : State}
    {p : ℕ} (hmap : mmap direct pf w.st r = (s, ⟨p, true⟩)) :
    SafeMapping direct s w.live ⟨p, r.len⟩ ↔ 1 ≤ r.len ∧ r.len ≤ maxLen := by
  constructor
  · intro hsafe
    exact (alignUp_page_pos hlen).mp hsafe.nonempty
  · intro hok
    have T' := @mmap_table direct pf w r h.ok hpf fun _ => hok
    rw [hmap] at T'
    exact safeMapping_of_table T' hok.2

/-- The first mapping of a new carve-out is safe. -/
theorem safeMapping_first : ∃ s,
    mmap true .idle (State.init fun _ => 0) (ownedRequest 20000) = (s, ⟨0x200000000, true⟩) ∧
      SafeMapping true s [] ⟨0x200000000, 20000⟩ := by
  have hans : (mmap true .idle (State.init fun _ => 0) (ownedRequest 20000)).2
      = ⟨0x200000000, true⟩ := by decide
  refine ⟨_, Prod.ext rfl hans, ?_⟩
  exact (Reaches.safeMapping_iff (w := World.init fun _ => 0) (.nil _) Platform.idle_documented
    (r := ownedRequest 20000) (by decide) (Prod.ext rfl hans)).mpr (by decide)

/-- A request for no bytes before anything else is served from a new carve-out, with an empty
block. -/
theorem not_safeMapping_zero : ∃ s, Platform.idle.Documented (State.init fun _ => 0).carveList ∧
    mmap true .idle (State.init fun _ => 0) (ownedRequest 0) = (s, ⟨0x200000000, true⟩) ∧
      ¬ SafeMapping true s [] ⟨0x200000000, 0⟩ := by
  have hans : (mmap true .idle (State.init fun _ => 0) (ownedRequest 0)).2
      = ⟨0x200000000, true⟩ := by decide
  refine ⟨_, Platform.idle_documented, Prod.ext rfl hans, fun hsafe => ?_⟩
  exact absurd hsafe.nonempty (by decide)

end OrbisCompat.Mmap
