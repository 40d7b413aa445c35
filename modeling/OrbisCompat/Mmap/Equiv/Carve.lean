import OrbisCompat.Mmap.Carve

/-!
# Correctness of `allocInLocked` and `freeInLocked`

On a well-formed carve-out both functions are edits of its tiling: `allocInLocked` cuts the front of
a free block (`allocInLocked_eq_some`), and `freeInLocked` finds the block that starts at the address
by binary search and releases it, when it is in use and has the length asked for
(`freeInLocked_eq_some`, `freeInLocked_of_mem`).
-/

namespace OrbisCompat.Mmap

open Tile

/-- The blocks of a table entry follow one another through it, whatever lengths they were cut to. -/
structure PlacedCarve (c : Carve) : Prop where
  va_pos : 0 < c.va
  user : c.va + c.size ≤ userEnd
  tiles : Tiles 0 c.blocks c.size
  few : c.n ≤ MaxBlocks

/-- Blocks end below the end of the carve-out, and nothing in it reaches `2 ^ 47`. -/
theorem PlacedCarve.block_le {c : Carve} (h : PlacedCarve c) {b : Block} (hb : b ∈ c.blocks) :
    b.off + b.size ≤ c.size ∧ c.va + c.size ≤ 2 ^ 47 :=
  ⟨(h.tiles.within hb).2, h.user⟩

/-- A table entry in use is well formed. -/
structure GoodCarve (c : Carve) : Prop where
  va_pos : 0 < c.va
  va_dvd : Page ∣ c.va
  user : c.va + c.size ≤ userEnd
  tiling : Tiling Page 0 c.size c.blocks
  nonempty : 1 ≤ c.n
  few : c.n ≤ MaxBlocks

namespace GoodCarve

variable {c : Carve}

theorem placed (h : GoodCarve c) : PlacedCarve c := ⟨h.va_pos, h.user, h.tiling.tiles, h.few⟩

theorem block_le (h : GoodCarve c) {b : Block} (hb : b ∈ c.blocks) :
    b.off + b.size ≤ c.size ∧ c.va + c.size ≤ 2 ^ 47 := h.placed.block_le hb

/-- The offset of a block starts it and no other. -/
theorem slot_off_lt (h : GoodCarve c) {i j : ℕ} (hij : i < j) (hj : j < c.n) :
    (c.blk.slot i).off < (c.blk.slot j).off := by
  have hi' : i < c.blocks.length := by rw [Carve.length_blocks]; omega
  have hj' : j < c.blocks.length := by rw [Carve.length_blocks]; exact hj
  have hord := List.pairwise_iff_getElem.mp h.tiling.tiles.ordered i j hi' hj' hij
  have hpos := (h.tiling.sizes _ (List.getElem_mem hi')).1
  simp only [Carve.blocks, CTable.getElem_toList] at hord hpos
  omega

/-- The binary search of `freeInLocked` finds the block that starts at an offset. -/
theorem lowerBound_off (h : GoodCarve c) {j : ℕ} (hj : j < c.n) :
    (c.blk.lowerBound fun b => decide (b.off < (c.blk.slot j).off)) = j := by
  obtain ⟨-, hbelow, habove⟩ := CTable.lowerBound_spec (t := c.blk)
    (p := fun b => decide (b.off < (c.blk.slot j).off)) fun i k hik hk hp => by
      rcases Nat.lt_or_eq_of_le hik with hlt | rfl
      · have := h.slot_off_lt hlt hk
        simp only [decide_eq_true_eq] at hp ⊢
        omega
      · exact hp
  set r := c.blk.lowerBound fun b => decide (b.off < (c.blk.slot j).off)
  rcases Nat.lt_trichotomy r j with hlt | heq | hgt
  · have := habove r le_rfl (hlt.trans hj)
    have := h.slot_off_lt hlt hj
    simp_all
  · exact heq
  · have := hbelow j hgt
    simp at this

end GoodCarve

/-! ### Allocating -/

/-- **`allocInLocked`** cuts `len` bytes off the front of the first free block that is long enough. -/
theorem allocInLocked_eq_some {c c' : Carve} {len p : ℕ} (hc : PlacedCarve c)
    (h : allocInLocked c len = some (c', p)) :
    ∃ pre b post, c.blocks = pre ++ b :: post ∧ b.used = false ∧ len ≤ b.size ∧
      p = c.va + b.off ∧ c'.blocks = pre ++ cut b len ++ post ∧ c'.n ≤ MaxBlocks ∧
      c' = { c with blk := c'.blk } ∧
      (c.n < MaxBlocks → ∀ d ∈ pre, ¬(d.used = false ∧ len ≤ d.size)) := by
  unfold allocInLocked at h
  obtain ⟨i, hi, hres⟩ := Option.map_eq_some_iff.mp h
  obtain ⟨hin, hok, hbefore⟩ := CTable.firstIdx_eq_some.mp hi
  have hsplit := CTable.toList_split c.blk hin
  set pre := c.blk.toList.take i with hpre
  set b := c.blk.slot i with hb
  set post := c.blk.toList.drop (i + 1) with hpost
  have hprelen : pre.length = i := by
    rw [hpre, List.length_take, CTable.length_toList]; omega
  simp only [Bool.and_eq_true, Bool.not_eq_true', Bool.or_eq_false_iff, decide_eq_false_iff_not,
    Nat.not_lt, Bool.or_eq_true, beq_iff_eq, decide_eq_true_eq] at hok
  obtain ⟨⟨hfree, hlen⟩, hroom⟩ := hok
  have hmem : b ∈ c.blocks := by rw [Carve.blocks, hsplit]; simp
  obtain ⟨hle, huser⟩ := hc.block_le hmem
  have hva : Word64.add c.va b.off = c.va + b.off := Word64.add_of_lt (by omega)
  -- a block in front of it was refused, and with room in the table only for its state or its size
  have hfirst : c.n < MaxBlocks → ∀ d ∈ pre, ¬(d.used = false ∧ len ≤ d.size) := by
    rintro hn d hd ⟨hdfree, hdlen⟩
    obtain ⟨j, hj, rfl⟩ := List.mem_iff_getElem.mp hd
    simp only [hpre, List.getElem_take, CTable.getElem_toList] at hdfree hdlen
    have hno := hbefore j (hprelen ▸ hj)
    rw [hdfree, decide_eq_false (Nat.not_lt.mpr hdlen), decide_eq_true hn, Bool.or_true] at hno
    cases hno
  refine ⟨pre, b, post, hsplit, hfree, hlen, ?_⟩
  dsimp only at hres
  -- the whole of the block, or its front
  split_ifs at hres with heq
  · obtain ⟨rfl, rfl⟩ := Prod.mk.inj hres
    have hlist : (c.blk.set i { b with used := true }).toList = pre ++ cut b len ++ post := by
      rw [CTable.toList_set_split _ _ hin, cut, if_pos heq, List.append_assoc, ← heq]
      rfl
    exact ⟨hva, hlist, hc.few, rfl, hfirst⟩
  · obtain ⟨rfl, rfl⟩ := Prod.mk.inj hres
    have hadd : Word64.add b.off len = b.off + len := Word64.add_of_lt (by omega)
    have hsub : Word64.sub b.size len = b.size - len := Word64.sub_of_le hlen (by omega)
    have hlist := CTable.toList_splitAt (u := (⟨b.off, len, true⟩ : Block))
      (v := ⟨Word64.add b.off len, Word64.sub b.size len, false⟩) hsplit
    rw [hprelen, hadd, hsub] at hlist
    refine ⟨hva, ?_, ?_, rfl, hfirst⟩
    · rw [cut, if_neg heq, List.append_assoc]
      show (CTable.setLen _ _).toList = _
      rw [hadd, hsub]
      exact hlist
    · exact hroom.resolve_left heq

/-- What is cut lies in the carve-out, and leaves the blocks in place. -/
theorem PlacedCarve.alloc {c c' : Carve} {len p : ℕ} (hc : PlacedCarve c)
    (h : allocInLocked c len = some (c', p)) :
    PlacedCarve c' ∧ c'.size = c.size ∧ 0 < p ∧ Extent.Within ⟨p, len⟩ c.extent := by
  obtain ⟨pre, b, post, hsplit, -, hle, rfl, hblocks, hfew, hfields, -⟩ :=
    allocInLocked_eq_some hc h
  have htiles := hc.tiles
  rw [hsplit] at htiles
  have hva : c'.va = c.va := by rw [hfields]
  have hsize : c'.size = c.size := by rw [hfields]
  have hend := (htiles.within (t := b) (by simp)).2
  refine ⟨⟨?_, ?_, ?_, hfew⟩, hsize, Nat.add_pos_left hc.va_pos _, Nat.le_add_right _ _, ?_⟩
  · rw [hva]
    exact hc.va_pos
  · rw [hva, hsize]
    exact hc.user
  · rw [hblocks, hsize]
    exact tiles_cut htiles hle
  · show c.va + b.off + len ≤ c.va + c.size
    omega

/-! ### Freeing -/

/-- The forward half joins the freed block with a free one after it. -/
theorem toList_coalesceNext {t : CTable Block} {pre post : List Block} {b : Block}
    (ht : t.toList = pre ++ b :: post) (hfree : b.used = false)
    (hfit : ∀ u ∈ post.head?, b.size + u.size < 2 ^ 64) :
    (coalesceNext t pre.length).toList = pre ++ joinFree b post := by
  have hn := CTable.n_of_split ht
  have hb := CTable.slot_of_split ht
  unfold coalesceNext
  cases post with
  | nil =>
    rw [if_neg (by rw [hn]; simp), ht, joinFree]
  | cons u post =>
    have hu : t.slot (pre.length + 1) = u := by
      have ht' : t.toList = (pre ++ [b]) ++ u :: post := by simpa using ht
      simpa using CTable.slot_of_split ht'
    have hlt : pre.length + 1 < t.n := by rw [hn]; simp
    rw [hb, hu, joinFree_cons]
    by_cases huf : u.used = false
    · have hsum : Word64.add b.size u.size = b.size + u.size := Word64.add_of_lt (hfit u rfl)
      rw [if_pos ⟨hlt, huf⟩, if_pos ⟨hfree, huf⟩]
      dsimp only
      rw [hsum, hfree]
      exact CTable.toList_merge ht
    · rw [if_neg (fun h => huf h.2), if_neg (fun h => huf h.2), ht]

/-- The backward half joins it with a free one before it: the same join, one index down. -/
theorem toList_coalescePrev {t : CTable Block} {pre post : List Block} {d b : Block}
    (ht : t.toList = pre ++ d :: b :: post) (hfree : b.used = false)
    (hfit : d.size + b.size < 2 ^ 64) :
    (coalescePrev t (pre.length + 1)).toList = pre ++ joinFree d (b :: post) := by
  have hd := CTable.slot_of_split ht
  have hb : t.slot (pre.length + 1) = b := by
    have ht' : t.toList = (pre ++ [d]) ++ b :: post := by simpa using ht
    simpa using CTable.slot_of_split ht'
  unfold coalescePrev
  simp only [Nat.add_sub_cancel, hd, hb, Nat.zero_lt_succ, true_and]
  rw [joinFree_cons]
  by_cases hdf : d.used = false
  · rw [if_pos hdf, if_pos ⟨hdf, hfree⟩, Word64.add_of_lt hfit, ← hdf]
    exact CTable.toList_merge ht
  · rw [if_neg hdf, if_neg (fun h => hdf h.1), ht]

@[simp] theorem coalescePrev_zero (t : CTable Block) : coalescePrev t 0 = t := by
  simp [coalescePrev]

/-- The two halves together release a block among its neighbours. -/
theorem toList_coalesce {t : CTable Block} {pre post : List Block} {b : Block} {size : ℕ}
    (ht : t.toList = pre ++ { b with used := false } :: post)
    (htiles : Tiles 0 (pre ++ b :: post) size) (hsize : size < 2 ^ 64) :
    (coalescePrev (coalesceNext t pre.length) pre.length).toList = releaseAround pre b post := by
  obtain ⟨hpre, hpost⟩ := htiles.split
  set f : Block := { b with used := false } with hf
  have hnext := toList_coalesceNext ht rfl fun u hu => by
    cases post with
    | nil => cases hu
    | cons v post =>
      obtain rfl : v = u := by simpa using hu
      have := hpost.2.le
      show b.size + v.size < _
      omega
  rcases List.eq_nil_or_concat' pre with rfl | ⟨pre', d, rfl⟩
  · rw [List.length_nil, coalescePrev_zero, releaseAround_nil]
    exact hnext
  · obtain ⟨g, m, hg, hgu⟩ := joinFree_head f post
    obtain ⟨-, hd⟩ := hpre.split
    have hd : d.off + d.size = b.off := hd
    -- the joined block still ends inside the carve-out
    have hgsize : b.off + g.size ≤ size := by
      have : Tiles b.off (f.joinFree post) size := tiles_joinFree ⟨rfl, hpost⟩
      rw [hg] at this
      exact this.2.le
    rw [releaseAround_concat, ← hf, hg]
    rw [hg, List.append_assoc, List.singleton_append] at hnext
    rw [List.length_append, List.length_singleton] at hnext ⊢
    exact toList_coalescePrev hnext hgu (by omega)

/-- **`freeInLocked`** of a block in use releases it. -/
theorem freeInLocked_of_mem {c : Carve} {b : Block} (hc : GoodCarve c) (hb : b ∈ c.blocks)
    (hused : b.used = true) :
    ∃ pre post c', c.blocks = pre ++ b :: post ∧
      freeInLocked c (c.va + b.off) b.size = some c' ∧
      c'.blocks = releaseAround pre b post ∧ c' = { c with blk := c'.blk } := by
  obtain ⟨j, hj, rfl⟩ := CTable.mem_toList.mp hb
  obtain ⟨hle, huser⟩ := hc.block_le hb
  have hoff : Word64.sub (c.va + (c.blk.slot j).off) c.va = (c.blk.slot j).off := by
    rw [Word64.sub_of_le (Nat.le_add_right _ _) (by omega), Nat.add_sub_cancel_left]
  have hsplit := CTable.toList_split c.blk hj
  have hprelen : (c.blk.toList.take j).length = j := by
    rw [List.length_take, CTable.length_toList]; omega
  refine ⟨_, _, { c with
    blk := coalescePrev (coalesceNext (c.blk.set j { c.blk.slot j with used := false }) j) j },
    hsplit, ?_, ?_, rfl⟩
  · unfold freeInLocked
    dsimp only
    rw [hoff, hc.lowerBound_off hj, if_neg]
    push Not
    exact ⟨hj, rfl, by rw [hused]; simp, rfl⟩
  · have htiles : Tiles 0 (c.blk.toList.take j ++ c.blk.slot j :: c.blk.toList.drop (j + 1))
        c.size := by rw [← hsplit]; exact hc.tiling.tiles
    have := toList_coalesce (CTable.toList_set_split c.blk { c.blk.slot j with used := false } hj)
      htiles (by omega)
    rwa [hprelen] at this

/-- **`freeInLocked`** frees nothing but a block in use of exactly that address and length. -/
theorem freeInLocked_eq_some {c c' : Carve} {p len : ℕ} (hc : GoodCarve c) (hp : p ∈ c.extent)
    (h : freeInLocked c p len = some c') :
    ∃ b ∈ c.blocks, b.used = true ∧ b.size = len ∧ p = c.va + b.off := by
  have huser := hc.user
  obtain ⟨hva, hlt⟩ := Extent.mem_iff.mp hp
  rw [Carve.extent_start] at hva hlt
  rw [Carve.extent_len] at hlt
  unfold userEnd at huser
  have hoff : Word64.sub p c.va = p - c.va := Word64.sub_of_le hva (by omega)
  unfold freeInLocked at h
  dsimp only at h
  rw [hoff] at h
  split_ifs at h with hbad
  push Not at hbad
  obtain ⟨hlo, hboff, hused, hsize⟩ := hbad
  refine ⟨_, CTable.mem_toList.mpr ⟨_, hlo, rfl⟩, by simpa using hused, hsize, ?_⟩
  omega

/-- What is released leaves the blocks in place. -/
theorem PlacedCarve.free {c c' : Carve} {p len : ℕ} (hc : PlacedCarve c)
    (h : freeInLocked c p len = some c') : PlacedCarve c' ∧ c'.size = c.size := by
  unfold freeInLocked at h
  dsimp only at h
  generalize hlo : (c.blk.lowerBound fun b => decide (b.off < Word64.sub p c.va)) = lo at h
  split_ifs at h with hbad
  push Not at hbad
  obtain ⟨hlt, -⟩ := hbad
  have hsplit := CTable.toList_split c.blk hlt
  have htiles := hc.tiles
  have huser := hc.user
  have hfew := hc.few
  unfold Carve.blocks at htiles
  rw [← Carve.length_blocks, Carve.blocks, hsplit] at hfew
  rw [hsplit] at htiles
  unfold userEnd at huser
  have hblocks := toList_coalesce
    (CTable.toList_set_split c.blk { c.blk.slot lo with used := false } hlt) htiles (by omega)
  have hlen : (c.blk.toList.take lo).length = lo := by
    rw [List.length_take, CTable.length_toList]
    exact Nat.min_eq_left hlt.le
  rw [hlen] at hblocks
  obtain rfl := Option.some.inj h
  refine ⟨⟨hc.va_pos, hc.user, ?_, ?_⟩, rfl⟩
  · unfold Carve.blocks
    rw [hblocks]
    exact tiles_releaseAround htiles
  · rw [← Carve.length_blocks, Carve.blocks, hblocks]
    have hle := Tiling.length_release_le (c.blk.toList.take lo) (c.blk.toList.drop (lo + 1))
      (c.blk.slot lo)
    rw [List.length_append, List.length_cons] at hfew
    omega

end OrbisCompat.Mmap
