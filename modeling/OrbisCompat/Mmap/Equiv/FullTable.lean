import OrbisCompat.Mmap.Equiv.Blocks

/-!
# A carve-out that fills the table

A request just over 192 MiB takes a carve-out of 194 MiB, which is then given back.  768 mappings of 256 KiB
are cut off it one after another (`exists_filled`).  Going back from the last but one, each is replaced by a
mapping of 240 KiB, which leaves a page free behind it (`exists_holed`).  After 767 of them the table
is full, and the 2 MiB behind the last mapping cannot be split any more (`exists_full`).
-/

namespace OrbisCompat.Mmap

open Extent Tile

/-- A world with one carve-out, with these blocks. -/
structure OneCarve (n : ℕ) (w : World) (l : List Block) : Prop where
  reached : ∃ cs, Reaches true (Call.LenBetween minMapping n) (fun _ => 0) cs w
  ok : w.Ok
  one : w.st.carves = 1
  va : (w.st.carve.slot 0).va = 0x200000000
  blocks : (w.st.carve.slot 0).blocks = l

namespace OneCarve

variable {n : ℕ} {w : World} {pre post l : List Block} {b : Block}

theorem mem (O : OneCarve n w l) : w.st.carve.slot 0 ∈ w.st.carveList :=
  CTable.mem_toList.mpr ⟨0, by rw [show w.st.carve.n = 1 from O.one]; exact Nat.one_pos, rfl⟩

theorem good (O : OneCarve n w l) : GoodCarve (w.st.carve.slot 0) := O.ok.good _ O.mem

theorem tiling (O : OneCarve n w l) : Tiling Page 0 (w.st.carve.slot 0).size l := by
  have h := O.good.tiling
  rwa [O.blocks] at h

/-- A mapping is cut off the first free block that is long enough. -/
theorem map {len : ℕ} (O : OneCarve n w (pre ++ b :: post)) (hlen : minMapping ≤ len ∧ len ≤ n)
    (hmax : len ≤ maxLen) (hfree : b.used = false) (hlt : alignUp len Page < b.size)
    (hpre : ∀ d ∈ pre, d.used = true) (hroom : (pre ++ b :: post).length < MaxBlocks) :
    ∃ w', OneCarve n w' (pre ++ ⟨b.off, alignUp len Page, true⟩ ::
      ⟨b.off + alignUp len Page, b.size - alignUp len Page, false⟩ :: post) := by
  obtain ⟨cs, hreach⟩ := O.reached
  have hn : (w.st.carve.slot 0).n < MaxBlocks := by
    rw [← Carve.length_blocks, O.blocks]
    exact hroom
  have hb : b ∈ (w.st.carve.slot 0).blocks := by
    rw [O.blocks]
    simp
  have hfit : (w.st.carve.slot 0).Fits (alignUp len Page) := ⟨b, hb, hfree, hlt.le, Or.inr hn⟩
  obtain ⟨⟨c', p⟩, halloc⟩ := Option.isSome_iff_exists.mp (isSome_allocInLocked.mpr hfit)
  obtain ⟨pre', b', post', hsplit, hfree', hle', -, hblocks, -, hfields, hfirst⟩ :=
    allocInLocked_eq_some O.good.placed halloc
  -- the block that is cut is the one that is named
  rw [O.blocks] at hsplit
  obtain ⟨rfl, rfl, rfl⟩ := CTable.first_split_unique
    (p := fun d : Block => d.used = false ∧ alignUp len Page ≤ d.size) ⟨hfree, hlt.le⟩ ⟨hfree', hle'⟩
    (fun d hd hno => by rw [hpre d hd] at hno; cases hno.1) (hfirst hn) hsplit
  have hcut : cut b (alignUp len Page) = [⟨b.off, alignUp len Page, true⟩,
      ⟨b.off + alignUp len Page, b.size - alignUp len Page, false⟩] := by
    unfold cut
    rw [if_neg hlt.ne']
  rw [hcut, List.append_assoc] at hblocks
  obtain ⟨-, -, hp, -⟩ := O.good.placed.alloc halloc
  obtain ⟨s', hm, hcarve⟩ := mmap_first .refusing (r := ownedRequest len) O.one rfl hp halloc
  have hstep : Step true w (.mmap (ownedRequest len)) ⟨s', ⟨p, len⟩ :: w.live⟩ := by
    have hcall : Step true w (.mmap (ownedRequest len))
        (w.mapped len (mmap true .refusing w.st (ownedRequest len))) :=
      .mmap .refusing (Platform.refusing_documented _) (by
        unfold maxLen Page at hmax
        show len < 2 ^ 64
        omega)
    rwa [hm] at hcall
  have hslot : s'.carve.slot 0 = c' := by rw [hcarve, CTable.set_slot_self]
  have hok : Call.LenBetween minMapping n (.mmap (ownedRequest len)) := fun _ => hlen
  have hwithin : Call.LenWithin maxLen (.mmap (ownedRequest len)) := fun _ =>
    ⟨le_trans (show 1 ≤ minMapping by decide) hlen.1, hmax⟩
  refine ⟨_, ⟨_, hreach.snoc ⟨hok, hstep⟩⟩, O.ok.step hwithin hstep, ?_, ?_, ?_⟩
  · show s'.carve.n = 1
    rw [hcarve]
    exact O.one
  · show (s'.carve.slot 0).va = _
    rw [hslot, hfields]
    exact O.va
  · show (s'.carve.slot 0).blocks = _
    rw [hslot]
    exact hblocks

/-- A mapping between others is given back. -/
theorem unmap {addr len : ℕ} (O : OneCarve n w (pre ++ b :: post)) (haddr : addr = 0x200000000 + b.off)
    (hlen : alignUp len Page = b.size) (hlt : len < 2 ^ 64) (hused : b.used = true)
    (hpre : ∀ d ∈ pre, d.used = true) (hpost : ∀ u ∈ post.head?, u.used = true) :
    ∃ w', OneCarve n w' (pre ++ { b with used := false } :: post) := by
  obtain ⟨cs, hreach⟩ := O.reached
  have hb : b ∈ (w.st.carve.slot 0).blocks := by
    rw [O.blocks]
    simp
  obtain ⟨pre', post', c', hsplit, hfree, hblocks, hfields⟩ := freeInLocked_of_mem O.good hb hused
  -- the block is where it was, between the same others
  obtain ⟨hnpre, hnpost⟩ := O.tiling.notMem_split
  rw [O.blocks] at hsplit
  obtain ⟨rfl, -, rfl⟩ := (List.append_cons_inj_of_notMem hnpre hnpost).mp hsplit
  rw [releaseAround_of_used hpre hpost] at hblocks
  obtain ⟨hend, huser⟩ := O.good.block_le hb
  have hpos := (O.tiling.sizes b (by simp)).1
  rw [O.va] at hfree hfields huser
  rw [← haddr, ← hlen] at hfree
  have hin : addr ∈ (w.st.carve.slot 0).extent := by
    rw [mem_iff, Carve.extent_start, Carve.extent_len, O.va]
    omega
  obtain ⟨i, hi, hof, -⟩ := carveOfLocked_of_mem O.ok O.mem hin
  obtain rfl : i = 0 := Nat.lt_one_iff.mp (O.one ▸ hi)
  -- the call takes this branch, as the others would need another answer
  have hm : ∃ s', munmap .refusing w.st addr len = (s', ⟨0, true⟩) ∧
      s'.carve = w.st.carve.set 0 c' := by
    rcases munmap_inversion .refusing w.st addr len with ⟨hno, -⟩ | ⟨i, hof', hres⟩
    · rw [hof] at hno
      cases hno
    · obtain rfl := Option.some.inj (hof.symm.trans hof')
      rcases hres with ⟨hno, -⟩ | ⟨d, hfree', hres⟩
      · rw [hfree] at hno
        cases hno
      · obtain rfl := Option.some.inj (hfree.symm.trans hfree')
        exact ⟨_, hres, rfl⟩
  obtain ⟨s', hm, hcarve⟩ := hm
  have hstep : Step true w (.munmap addr len)
      (w.unmapped addr (munmap .refusing w.st addr len)) := .munmap .refusing (by omega) hlt
  rw [hm] at hstep
  have hslot : s'.carve.slot 0 = c' := by rw [hcarve, CTable.set_slot_self]
  have hbetween : Call.LenBetween minMapping n (.munmap addr len) := trivial
  have hwithin : Call.LenWithin maxLen (.munmap addr len) := trivial
  refine ⟨_, ⟨_, hreach.snoc ⟨hbetween, hstep⟩⟩, O.ok.step hwithin hstep, ?_, ?_, ?_⟩
  · show s'.carve.n = 1
    rw [hcarve]
    exact O.one
  · show (s'.carve.slot 0).va = _
    rw [hslot, hfields]
  · show (s'.carve.slot 0).blocks = _
    rw [hslot]
    exact hblocks

end OneCarve

/-! ### The run -/

/-- The mapping of 256 KiB at index `k`. -/
def whole (k : ℕ) : Block := ⟨0x40000 * k, 0x40000, true⟩

/-- `k` mappings of 256 KiB. -/
def filled (k : ℕ) : List Block := (List.range k).map whole

/-- What is left of the 194 MiB behind them. -/
def restOf (k : ℕ) : Block := ⟨0x40000 * k, 0xC200000 - 0x40000 * k, false⟩

/-- `j` mappings of 240 KiB with a page behind each, up to the last mapping of 256 KiB. -/
def holed : ℕ → List Block
  | 0 => [whole 767, restOf 768]
  | j + 1 => ⟨0x40000 * (766 - j), 0x3C000, true⟩ :: ⟨0x40000 * (766 - j) + 0x3C000, 0x4000, false⟩ :: holed j

theorem filled_succ (k : ℕ) : filled (k + 1) = filled k ++ [whole k] := by
  unfold filled
  rw [List.range_succ, List.map_append, List.map_singleton]

@[simp] theorem length_filled (k : ℕ) : (filled k).length = k := by simp [filled]

theorem filled_used {k : ℕ} : ∀ d ∈ filled k, d.used = true := by
  intro d hd
  obtain ⟨i, -, rfl⟩ := List.mem_map.mp hd
  rfl

theorem length_holed (j : ℕ) : (holed j).length = 2 * j + 2 := by
  induction j with
  | zero => rfl
  | succ j ih =>
    unfold holed
    rw [List.length_cons, List.length_cons, ih]
    omega

theorem holed_head (j : ℕ) : ∀ u ∈ (holed j).head?, u.used = true := by
  intro u hu
  cases j <;>
  · obtain rfl := Option.some.inj hu
    rfl

/-- No free block but the last is longer than a page. -/
theorem mem_holed {j : ℕ} {b : Block} (h : b ∈ holed j) (hfree : b.used = false) :
    b.size = 0x4000 ∨ b = restOf 768 := by
  induction j with
  | zero =>
    unfold holed at h
    rcases List.mem_cons.mp h with rfl | h
    · cases hfree
    · exact Or.inr (List.mem_singleton.mp h)
  | succ j ih =>
    unfold holed at h
    rcases List.mem_cons.mp h with rfl | h
    · cases hfree
    · rcases List.mem_cons.mp h with rfl | h
      · exact Or.inl rfl
      · exact ih h

theorem restOf_mem_holed (j : ℕ) : restOf 768 ∈ holed j := by
  induction j with
  | zero => exact List.mem_cons_of_mem _ (List.mem_singleton.mpr rfl)
  | succ j ih => exact List.mem_cons_of_mem _ (List.mem_cons_of_mem _ ih)

variable {n : ℕ}

/-- The carve-out of 194 MiB, given back. -/
theorem exists_empty (hn : safeCarve < n) : ∃ w, OneCarve n w (filled 0 ++ [restOf 0]) := by
  have hle : safeCarve + 1 ≤ n := hn
  have hmap : Step true (World.init fun _ => 0) (.mmap (ownedRequest (safeCarve + 1))) _ :=
    .mmap .idle Platform.idle_documented (by decide)
  have hunmap : Step true _ (.munmap 0x200000000 (safeCarve + 1)) _ :=
    .munmap (w := (World.init fun _ => 0).mapped (safeCarve + 1)
      (mmap true .idle (World.init fun _ => 0).st (ownedRequest (safeCarve + 1)))) .idle (by decide)
      (by decide)
  have hlen : Call.LenBetween minMapping n (.mmap (ownedRequest (safeCarve + 1))) :=
    fun _ => ⟨show minMapping ≤ safeCarve + 1 by decide, hle⟩
  have hwithin : Call.LenWithin maxLen (.mmap (ownedRequest (safeCarve + 1))) :=
    fun _ => ⟨show 1 ≤ safeCarve + 1 by decide, show safeCarve + 1 ≤ maxLen by decide⟩
  have hlen' : Call.LenBetween minMapping n (.munmap 0x200000000 (safeCarve + 1)) := trivial
  have hwithin' : Call.LenWithin maxLen (.munmap 0x200000000 (safeCarve + 1)) := trivial
  have hok : (World.init fun _ => 0).Ok := Table.empty
  exact ⟨_, ⟨_, .cons ⟨hlen, hmap⟩ (.cons ⟨hlen', hunmap⟩ (.nil _))⟩,
    (hok.step hwithin hmap).step hwithin' hunmap, by decide +kernel, by decide +kernel,
    by decide +kernel⟩

/-- 256 KiB are cut off the rest. -/
theorem exists_filled (hn : safeCarve < n) : ∀ k ≤ 768, ∃ w, OneCarve n w (filled k ++ [restOf k]) := by
  intro k
  induction k with
  | zero => exact fun _ => exists_empty hn
  | succ k ih =>
    intro hk
    obtain ⟨w, O⟩ := ih (by omega)
    have hwant : alignUp 0x40000 Page = 0x40000 := by decide
    have hlt : alignUp 0x40000 Page < (restOf k).size := by
      rw [hwant]
      unfold restOf
      dsimp only
      omega
    have hlen : minMapping ≤ 0x40000 ∧ 0x40000 ≤ n := by
      unfold safeCarve at hn
      exact ⟨by decide, by omega⟩
    have hroom : (filled k ++ [restOf k]).length < MaxBlocks := by
      unfold MaxBlocks
      rw [List.length_append, length_filled, List.length_singleton]
      omega
    obtain ⟨w', O'⟩ := O.map hlen (by decide) rfl hlt filled_used hroom
    refine ⟨w', ?_⟩
    rw [hwant] at O'
    have hrest : (⟨(restOf k).off + 0x40000, (restOf k).size - 0x40000, false⟩ : Block)
        = restOf (k + 1) := by
      unfold restOf
      rw [Nat.mul_succ, Nat.sub_sub]
    rw [hrest] at O'
    rw [filled_succ, List.append_assoc]
    exact O'

/-- Going back, each is replaced by 240 KiB. -/
theorem exists_holed (hn : safeCarve < n) :
    ∀ j ≤ 767, ∃ w, OneCarve n w (filled (767 - j) ++ holed j) := by
  intro j
  induction j with
  | zero =>
    intro _
    obtain ⟨w, O⟩ := exists_filled hn 768 le_rfl
    refine ⟨w, ?_⟩
    rw [filled_succ, List.append_assoc] at O
    exact O
  | succ j ih =>
    intro hj
    obtain ⟨w, O⟩ := ih (by omega)
    have hstep : 767 - j = 766 - j + 1 := by omega
    rw [hstep, filled_succ, List.append_assoc] at O
    -- the last of the mappings in front is given back, between two that are in use
    obtain ⟨w₁, O₁⟩ := O.unmap rfl (show alignUp 0x40000 Page = 0x40000 by decide) (by norm_num) rfl
      filled_used (holed_head j)
    have hwant : alignUp 0x3C000 Page = 0x3C000 := by decide
    have hlen : minMapping ≤ 0x3C000 ∧ 0x3C000 ≤ n := by
      unfold safeCarve at hn
      exact ⟨by decide, by omega⟩
    have hroom : (filled (766 - j) ++ { whole (766 - j) with used := false } :: holed j).length
        < MaxBlocks := by
      unfold MaxBlocks
      rw [List.length_append, length_filled, List.length_cons, length_holed]
      omega
    obtain ⟨w₂, O₂⟩ := O₁.map hlen (by decide) rfl
      (show alignUp 0x3C000 Page < 0x40000 by decide) filled_used hroom
    rw [hwant] at O₂
    have hpage : (whole (766 - j)).size - 0x3C000 = 0x4000 := by norm_num [whole]
    refine ⟨w₂, ?_⟩
    rw [show 767 - (j + 1) = 766 - j by omega, holed, ← hpage]
    exact O₂

/-- **The table is full**, with 2 MiB free behind the last mapping. -/
theorem exists_full (hn : safeCarve < n) : ∃ w, OneCarve n w (holed 767) := exists_holed hn 767 le_rfl

theorem OneCarve.full {w : World} (O : OneCarve n w (holed 767)) :
    (w.st.carve.slot 0).n = MaxBlocks ∧ restOf 768 ∈ (w.st.carve.slot 0).blocks := by
  rw [← Carve.length_blocks, O.blocks, length_holed]
  exact ⟨rfl, restOf_mem_holed 767⟩

/-- **When the block table suffices.**  It is the limit in no state that owned requests of 240 KiB to `n`
bytes lead to, exactly when `n` is at most 192 MiB. -/
theorem tableSuffices_iff (n : ℕ) : (∀ mem cs w,
      Reaches true (Call.LenBetween minMapping n) mem cs w → TableSuffices w.st) ↔ n ≤ safeCarve := by
  constructor
  · intro hall
    by_contra hn
    obtain ⟨w, O⟩ := exists_full (Nat.not_le.mp hn)
    obtain ⟨cs, hreach⟩ := O.reached
    obtain ⟨hfull, hrest⟩ := O.full
    exact absurd ((hall _ cs w hreach).room _ O.mem hfull _ hrest rfl) (by decide)
  · intro hn mem cs w h
    have M : Modest w := by
      refine Lts.Run.preserves (P := Modest) (fun w c w' M hs => M.step ?_ hs.2) h ?_
      · cases c with
        | mmap r => exact fun howned => ⟨(hs.1 howned).1, (hs.1 howned).2.trans hn⟩
        | _ => trivial
      · exact ⟨Table.empty, fun m hm => (by cases hm), fun c hc => (by cases hc)⟩
    exact M.tableSuffices

/-- After a request of one byte over 192 MiB, its unmapping and requests of 256 KiB and 240 KiB, 240 KiB more
are not served out of a carve-out that has 2 MiB free. -/
theorem not_served_full : ∃ cs w,
    Reaches true (Call.LenBetween minMapping (safeCarve + 1)) (fun _ => 0) cs w ∧
    (∃ c ∈ w.st.carveList, c.n = MaxBlocks ∧
      ∃ b ∈ c.blocks, b.used = false ∧ b.size = 2 * 1024 * 1024) ∧
    (mmap true .refusing w.st (ownedRequest minMapping)).2.carved = false := by
  obtain ⟨w, O⟩ := exists_full (Nat.lt_succ_self safeCarve)
  obtain ⟨cs, hreach⟩ := O.reached
  obtain ⟨hn, hrest⟩ := O.full
  refine ⟨cs, w, hreach, ⟨_, O.mem, hn, _, hrest, rfl, by decide⟩, ?_⟩
  have howned : isOwnedRequest (ownedRequest minMapping) = true := rfl
  obtain ⟨-, hans, -⟩ := mmap_owned_exact O.ok.placed (Platform.refusing_documented _) howned rfl
  refine Bool.eq_false_iff.mpr fun hcarved => ?_
  rcases hans.room.mp hcarved with ⟨c, hc, b, hb, hfree, hle, hroom⟩ | ⟨-, -, _, _, hno, -⟩
  · obtain ⟨i, hi, rfl⟩ := CTable.mem_toList.mp hc
    obtain rfl : i = 0 := Nat.lt_one_iff.mp (O.one ▸ hi)
    -- no free block is of exactly that length, and none can be split
    rcases hroom with hsize | hlt
    · rw [O.blocks] at hb
      rcases mem_holed hb hfree with hpage | rfl
      · rw [hpage] at hsize
        exact absurd hsize (by decide)
      · exact absurd hsize (by decide)
    · rw [hn] at hlt
      exact lt_irrefl _ hlt
  · cases hno

end OrbisCompat.Mmap
