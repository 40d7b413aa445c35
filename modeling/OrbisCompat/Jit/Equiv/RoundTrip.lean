import OrbisCompat.Jit.Equiv.Suballocator

/-!
# Allocating and freeing at once

`orbis_jit_alloc` cuts a block off the front of a free span of an arena, and `orbis_jit_free` of the
pointer puts it back.  The two cancel (`Extent.joinAround_dropFront`) unless the list of the arena is full
after the cut, which `orbis_jit_give` asks before it has looked whether the block joins a neighbour.
`Reaches.roundTrip_iff` has the exact condition, with the requests whose block length wraps.
-/

namespace OrbisCompat.Jit

open Extent

/-- The free list of every arena. -/
def State.freeLists (s : State) : List (List Extent) := s.arenas.map OrbisJitArena.spans

/-- The index of the arena that `orbis_jit_alloc` takes from, when it needs no new one. -/
def orbisJitScanIdx (anchor : ℕ) (s : State) (len flags : ℕ) : Option ℕ :=
  s.sArena.firstIdx fun a => orbisJitServes anchor flags a && (orbisJitTake a len).isSome

/-- The list of arena `i` has room, or the block is the whole of its span `j`.  (A length that has wrapped
to zero takes nothing, and is not put back unless the pointer is a whole arena's.) -/
def RoundTrips (s : State) (i j len : ℕ) : Prop :=
  2 * orbisJitAlign ≤ len ∧ ((s.sArena.slot i).nspans < orbisJitMaxSpans ∨
      ((s.sArena.slot i).span.slot j).len = len) ∨
    len = 0 ∧ ∀ b ∈ s.arenas, b.dedicated = true →
      b.base ≠ ((s.sArena.slot i).span.slot j).start + orbisJitAlign

variable {live : List Handout} {dropped : List Extent} {s : State} {i j len : ℕ}

/-! ### One arena -/

section OneArena

variable {a a' : OrbisJitArena} {e : Extent} {pre post : List Extent}

/-- The list after the cut has room exactly when it had room before, or the block was a whole span. -/
theorem nspans_take (hfew : a.nspans ≤ orbisJitMaxSpans) (hspans : a.spans = pre ++ e :: post)
    (hspans' : a'.spans = pre ++ dropFront e len ++ post) :
    a'.nspans < orbisJitMaxSpans ↔ a.nspans < orbisJitMaxSpans ∨ e.len = len := by
  rw [← OrbisJitArena.length_spans] at hfew ⊢
  rw [← OrbisJitArena.length_spans]
  rw [hspans] at hfew ⊢
  rw [hspans']
  unfold dropFront
  split_ifs with h
  all_goals
    simp only [List.length_append, List.length_cons, List.length_nil] at hfew ⊢
    omega

/-- **Giving back what was cut off.** -/
theorem orbisJitGive_take (hg : GoodArena a) (hg' : GoodArena a') (hspans : a.spans = pre ++ e :: post)
    (hle : len ≤ e.len) (hpos : 0 < len) (hspans' : a'.spans = pre ++ dropFront e len ++ post)
    (hroom : a'.nspans < orbisJitMaxSpans) : (orbisJitGive a' e.start len).spans = a.spans := by
  have hsep := hg.freeList.separated
  rw [hspans] at hsep
  obtain ⟨-, hmid, hcross⟩ := List.pairwise_append.mp hsep
  obtain ⟨hepost, -⟩ := List.pairwise_cons.mp hmid
  have hmem : e ∈ a.spans := by rw [hspans]; simp
  have hfit := hg.fits e hmem
  have hidx : orbisJitGiveIdx a' e.start = pre.length := by
    have hsplit : a'.spans = pre ++ (dropFront e len ++ post) := by rw [hspans', List.append_assoc]
    refine orbisJitGiveIdx_eq hsplit (fun f hf => ?_) fun f hf => ?_
    · have := hcross f hf e List.mem_cons_self
      unfold stop at this
      omega
    · rcases List.mem_append.mp (List.mem_of_mem_head? hf) with hf | hf
      · rw [(mem_dropFront hle hf).1]
        omega
      · have := hepost f hf
        unfold stop at this
        omega
  have hstop : e.start + len < 2 ^ 64 := by unfold stop at hfit; omega
  rw [orbisJitGive_spans hg'.fits hstop hroom, hidx, hspans', List.append_assoc, List.take_left',
    List.drop_left', joinAround_dropFront hsep hle, hspans]
  · rfl
  · rfl

/-- A cut changes the list, unless it is empty. -/
theorem spans_take_ne (hspans : a.spans = pre ++ e :: post)
    (hspans' : a'.spans = pre ++ dropFront e len ++ post) (hpos : 0 < len) : a'.spans ≠ a.spans := by
  intro heq
  rw [hspans, hspans', List.append_assoc, List.append_cancel_left_eq] at heq
  unfold dropFront at heq
  split_ifs at heq with h
  · have := congrArg List.length heq
    simp at this
  · have := congrArg Extent.start (List.cons.inj heq).1
    dsimp only at this
    omega

end OneArena

/-! ### The table -/

/-- The arena an address lies in depends on where the arenas are, and not on their free lists. -/
theorem orbisJitArenaOf_set {a' : OrbisJitArena} {mem : FlatMem}
    (hbase : a'.base = (s.sArena.slot i).base) (hsize : a'.size = (s.sArena.slot i).size) (x : ℕ) :
    orbisJitArenaOf { s with sArena := s.sArena.set i a', mem := mem } x = orbisJitArenaOf s x := by
  have hsame : ∀ k, ((s.sArena.set i a').slot k).base = (s.sArena.slot k).base ∧
      ((s.sArena.set i a').slot k).size = (s.sArena.slot k).size := by
    intro k
    rw [CTable.set_slot]
    split_ifs with hk
    · rw [hk]
      exact ⟨hbase, hsize⟩
    · exact ⟨rfl, rfl⟩
  unfold orbisJitArenaOf CTable.firstIdx
  dsimp only [CTable.set_n]
  congr 1
  funext k
  rw [(hsame k).1, (hsame k).2]

/-- The search finds the arena by its index. -/
theorem Ledger.arenaOf_index (L : s.Ok live dropped) (hi : i < s.sArenas) {x : ℕ}
    (hx : x ∈ (s.sArena.slot i).extent) : orbisJitArenaOf s x = some i := by
  have huser : ∀ a ∈ s.arenas, a.base + a.size ≤ userEnd := fun a ha => (L.good a ha).user
  have hmem : ∀ k < s.sArenas, s.sArena.slot k ∈ s.arenas := fun k hk =>
    CTable.mem_toList.mpr ⟨k, hk, rfl⟩
  refine CTable.firstIdx_eq_some.mpr ⟨hi, (arenaOf_test huser (hmem i hi) x).mpr hx, fun k hk => ?_⟩
  -- an arena in front of it does not hold the address
  have hap : Apart (s.sArena.slot k).extent (s.sArena.slot i).extent := by
    have hlen : s.arenas.length = s.sArenas := CTable.length_toList _
    have := List.pairwise_iff_getElem.mp L.apart k i (hlen ▸ hk.trans hi) (hlen ▸ hi) hk
    simpa [State.arenas] using this
  rw [← Bool.not_eq_true, arenaOf_test huser (hmem k (hk.trans hi)) x]
  exact fun hxk => hap.not_mem hxk hx

/-- Replacing one list gives the same lists exactly when it is the same list. -/
theorem freeLists_set_eq (hi : i < s.sArenas) {l : List Extent} :
    s.freeLists.set i l = s.freeLists ↔ l = (s.sArena.slot i).spans := by
  have hlen : i < s.freeLists.length := by
    unfold State.freeLists State.arenas
    rw [List.length_map, CTable.length_toList]
    exact hi
  have hget : s.freeLists[i] = (s.sArena.slot i).spans := by simp [State.freeLists, State.arenas]
  constructor
  · intro h
    have := List.getElem_set_self (l := s.freeLists) (a := l) (by rw [List.length_set]; exact hlen)
    rw [← this, ← hget]
    simp only [h]
  · rintro rfl
    rw [← hget, List.set_getElem_self]

/-! ### The pair of calls -/

/-- The state after the allocation. -/
def State.taken (s : State) (i : ℕ) (a' : OrbisJitArena) (p len : ℕ) : State :=
  { s with sArena := s.sArena.set i a', mem := s.mem.store64 p len }

/-- The arena and the span that the allocation takes from, and what it leaves. -/
structure Served (s : State) (i j len : ℕ) (a' : OrbisJitArena) (pre post : List Extent) : Prop where
  lt : i < s.sArenas
  shared : (s.sArena.slot i).dedicated = false
  spans : (s.sArena.slot i).spans = pre ++ (s.sArena.slot i).span.slot j :: post
  le : len ≤ ((s.sArena.slot i).span.slot j).len
  spans' : a'.spans = pre ++ dropFront ((s.sArena.slot i).span.slot j) len ++ post
  fields : a' = { s.sArena.slot i with span := a'.span }

/-- **`orbis_jit_alloc` from an existing arena.** -/
theorem orbisJitAlloc_served {anchor size flags : ℕ} (pf : Platform) (L : s.Ok live dropped)
    (hi : orbisJitScanIdx anchor s (orbisJitBlockLen size) flags = some i)
    (hj : orbisJitFirstFit (s.sArena.slot i) (orbisJitBlockLen size) = some j) :
    ∃ a', Served s i j (orbisJitBlockLen size) a' ((s.sArena.slot i).spans.take j)
        ((s.sArena.slot i).spans.drop (j + 1)) ∧
      orbisJitAlloc anchor pf s size flags =
        some (s.taken i a' ((s.sArena.slot i).span.slot j).start (orbisJitBlockLen size),
          Word64.add ((s.sArena.slot i).span.slot j).start orbisJitAlign) := by
  obtain ⟨hin, hboth, -⟩ := CTable.firstIdx_eq_some.mp hi
  have hg := L.good _ (CTable.mem_toList.mpr ⟨i, hin, rfl⟩)
  obtain ⟨a', htake, hspans, hle, hspans', hfields⟩ := orbisJitTake_firstFit hg.fits hj
  refine ⟨a', ⟨hin, dedicated_of_serves (Bool.and_eq_true _ _ |>.mp hboth).1, hspans, hle,
    hspans', hfields⟩, ?_⟩
  have hscan : orbisJitScan anchor s (orbisJitBlockLen size) flags
      = s.takeAt i (orbisJitBlockLen size) := congrArg (fun o => Option.bind o _) hi
  have hat : s.takeAt i (orbisJitBlockLen size)
      = some ({ s with sArena := s.sArena.set i a' }, ((s.sArena.slot i).span.slot j).start) :=
    congrArg (Option.map _) htake
  unfold orbisJitAlloc
  dsimp only
  rw [hscan, hat]
  rfl

section Pair

variable {a' : OrbisJitArena} {pre post : List Extent}

theorem Served.mem (S : Served s i j len a' pre post) : s.sArena.slot i ∈ s.arenas :=
  CTable.mem_toList.mpr ⟨i, S.lt, rfl⟩

theorem Served.span_mem (S : Served s i j len a' pre post) :
    (s.sArena.slot i).span.slot j ∈ (s.sArena.slot i).spans := by
  rw [S.spans]
  simp

/-- The pointer does not wrap. -/
theorem Served.ptr (S : Served s i j len a' pre post) (L : s.Ok live dropped) :
    Word64.add ((s.sArena.slot i).span.slot j).start orbisJitAlign
      = ((s.sArena.slot i).span.slot j).start + 64 := by
  have hg := L.good _ S.mem
  have hw := (hg.freeList.within _ S.span_mem).2
  have hu := hg.user
  rw [OrbisJitArena.extent_stop, stop] at hw
  unfold userEnd at hu
  exact Word64.add_of_lt (by unfold orbisJitAlign; omega)

/-- What `orbis_jit_free` of the pointer reads in front of it is the length. -/
theorem Served.load (S : Served s i j len a' pre post) (L : s.Ok live dropped) (hlen : len < 2 ^ 64) :
    Word64.sub (((s.sArena.slot i).span.slot j).start + 64) orbisJitAlign
        = ((s.sArena.slot i).span.slot j).start ∧
      (s.taken i a' ((s.sArena.slot i).span.slot j).start len).mem.load64
        ((s.sArena.slot i).span.slot j).start = len := by
  have hadd := S.ptr L
  have hlt : ((s.sArena.slot i).span.slot j).start + 64 < 2 ^ 64 := hadd ▸ Word64.add_lt _ _
  constructor
  · rw [Word64.sub_of_le (by unfold orbisJitAlign; omega) hlt]
    exact Nat.add_sub_cancel _ _
  · show (s.mem.store64 _ len).load64 _ = len
    rw [FlatMem.load64_store64, Nat.mod_eq_of_lt hlen]

theorem Served.arenaOf (S : Served s i j len a' pre post) (p x : ℕ) :
    orbisJitArenaOf (s.taken i a' p len) x = orbisJitArenaOf s x :=
  orbisJitArenaOf_set (by rw [S.fields]) (by rw [S.fields]) x

/-- **A proper block** goes back to its arena. -/
theorem Served.free_block (S : Served s i j len a' pre post) (L : s.Ok live dropped) {size : ℕ}
    (hsize : size ≤ orbisJitMaxSize) (hlen : len = orbisJitBlockLen size) :
    (orbisJitFree (s.taken i a' ((s.sArena.slot i).span.slot j).start len)
        (((s.sArena.slot i).span.slot j).start + 64)).freeLists
      = s.freeLists.set i (orbisJitGive a' ((s.sArena.slot i).span.slot j).start len).spans := by
  obtain ⟨-, h128, h64, hlt⟩ := orbisJitBlockLen_spec hsize
  rw [← hlen] at h128 h64 hlt
  have hg := L.good _ S.mem
  have hg' := goodArena_take hg S.shared S.spans S.le h64 S.spans' S.fields
  have hw := hg.freeList.within _ S.span_mem
  have hae : a'.extent = (s.sArena.slot i).extent := by rw [S.fields]; rfl
  have hblock : Within ⟨((s.sArena.slot i).span.slot j).start, len⟩ a'.extent := by
    rw [hae]
    obtain ⟨hw1, hw2⟩ := hw
    have := S.le
    refine ⟨hw1, ?_⟩
    unfold stop at hw2 ⊢
    dsimp only
    omega
  have hmem : ((s.sArena.slot i).span.slot j).start + 64 ∈ (s.sArena.slot i).extent := by
    rw [← hae]
    exact hblock.mem (mem_iff.mpr ⟨by dsimp only; omega, by dsimp only; omega⟩)
  have hof := S.arenaOf ((s.sArena.slot i).span.slot j).start
    (((s.sArena.slot i).span.slot j).start + 64)
  rw [L.arenaOf_index S.lt hmem] at hof
  obtain ⟨hsub, hload⟩ := S.load L hlt
  obtain ⟨hfree, -⟩ := orbisJitFree_eq (Nat.succ_pos _) hof
  have hslot : (s.taken i a' ((s.sArena.slot i).span.slot j).start len).sArena.slot i = a' :=
    CTable.set_slot_self _ _ _
  have hshared : a'.dedicated = false := by rw [S.fields]; exact S.shared
  have hok : orbisJitHeaderOk a' ((s.sArena.slot i).span.slot j).start len = true := by
    rw [hlen] at hblock ⊢
    exact orbisJitHeaderOk_of_within hg' hsize hblock
  rw [hslot, hsub, hload, hshared, hok, if_neg (by simp), if_pos rfl] at hfree
  rw [hfree]
  unfold State.freeLists State.arenas State.taken
  dsimp only
  rw [CTable.toList_set, CTable.toList_set, List.set_set, List.map_set]

/-- **A length that has wrapped**: the header check refuses what the pointer has in front of it, so nothing
is put back; but the pointer may be where a dedicated arena starts, which then goes. -/
theorem Served.free_wrapped (S : Served s i j len a' pre post) (L : s.Ok live dropped)
    (hlen : len < 2 * orbisJitAlign) :
    let p := ((s.sArena.slot i).span.slot j).start + 64
    let t := s.taken i a' ((s.sArena.slot i).span.slot j).start len
    (∃ b ∈ s.arenas, b.dedicated = true ∧ b.base = p) ∧
        (orbisJitFree t p).freeLists.length + 1 = s.freeLists.length ∨
      (∀ b ∈ s.arenas, b.dedicated = true → b.base ≠ p) ∧
        (orbisJitFree t p).freeLists = s.freeLists.set i a'.spans := by
  intro p t
  have hlen' : len < 2 ^ 64 := hlen.trans (by unfold orbisJitAlign; norm_num)
  obtain ⟨hsub, hload⟩ := S.load L hlen'
  have huser : ∀ a ∈ s.arenas, a.base + a.size ≤ userEnd := fun a ha => (L.good a ha).user
  have hof : orbisJitArenaOf t p = orbisJitArenaOf s p := S.arenaOf _ _
  have hshared : a'.dedicated = false := by rw [S.fields]; exact S.shared
  -- only the arena that served the request has changed, and it is not dedicated
  have hslot : ∀ k, (t.sArena.slot k).dedicated = true → t.sArena.slot k = s.sArena.slot k := by
    intro k hk
    by_cases hki : k = i
    · have : t.sArena.slot k = a' := by rw [hki]; exact CTable.set_slot_self _ _ _
      rw [this, hshared] at hk
      cases hk
    · exact (CTable.set_slot _ _ _ _).trans (if_neg hki)
  have htlists : t.freeLists = s.freeLists.set i a'.spans := by
    unfold State.freeLists State.arenas
    rw [show t.sArena = s.sArena.set i a' from rfl, CTable.toList_set, List.map_set]
  have hrefused : ∀ b : OrbisJitArena, orbisJitHeaderOk b (Word64.sub p orbisJitAlign)
      (t.mem.load64 (Word64.sub p orbisJitAlign)) ≠ true := by
    intro b
    rw [hsub, hload]
    unfold orbisJitHeaderOk
    rw [decide_eq_true hlen]
    simp
  rcases orbisJitFree_inversion t p with h | ⟨k, hk, hkn, ⟨hd, hbase, h⟩ | ⟨-, hok, -⟩⟩
  · right
    rw [h]
    refine ⟨fun b hb hbd hbp => ?_, htlists⟩
    -- a dedicated arena at the pointer would have been found and dropped
    obtain ⟨k, hkn, hkof, hkb⟩ := orbisJitArenaOf_of_mem huser L.apart hb
      (hbp ▸ (L.good b hb).base_mem)
    have hki : k ≠ i := by
      rintro rfl
      rw [← hkb, S.shared] at hbd
      cases hbd
    have htk : t.sArena.slot k = b := ((CTable.set_slot _ _ _ _).trans (if_neg hki)).trans hkb
    obtain ⟨hfree, -⟩ := orbisJitFree_eq (s := t) (Nat.succ_pos _) (hof.trans hkof)
    rw [htk, hbd, if_pos rfl, hbp, if_neg (fun h => h rfl)] at hfree
    have hlt : t.sArena.n = (t.dropArena k).sArena.n :=
      congrArg (fun s => s.sArena.n) (h.symm.trans hfree)
    have hn : t.sArena.n = s.sArenas := rfl
    have hdrop : (t.dropArena k).sArena.n = t.sArena.n - 1 := rfl
    omega
  · left
    have hb : s.sArena.slot k ∈ s.arenas := CTable.mem_toList.mpr ⟨k, hkn, rfl⟩
    refine ⟨⟨_, hb, by rw [← hslot k hd]; exact hd, by rw [← hslot k hd]; exact hbase.symm⟩, ?_⟩
    rw [h]
    unfold State.freeLists
    rw [List.length_map, List.length_map, dropArena_arenas hkn, List.length_append, List.length_take,
      List.length_drop]
    have hn : t.arenas.length = s.sArenas := (CTable.length_toList _).trans rfl
    have hn' : s.arenas.length = s.sArenas := CTable.length_toList _
    have hkn' : k < s.sArenas := hkn
    omega
  · exact absurd hok (hrefused _)

/-- **Allocating and freeing at once**, in a state with a ledger. -/
theorem Ledger.roundTrip (L : s.Ok live dropped) {anchor size flags p : ℕ} {pf : Platform}
    {s' : State} (hsize : size < 2 ^ 64)
    (hi : orbisJitScanIdx anchor s (orbisJitBlockLen size) flags = some i)
    (hj : orbisJitFirstFit (s.sArena.slot i) (orbisJitBlockLen size) = some j)
    (h : orbisJitAlloc anchor pf s size flags = some (s', p)) :
    (orbisJitFree s' p).freeLists = s.freeLists ↔ RoundTrips s i j (orbisJitBlockLen size) := by
  obtain ⟨a', S, halloc⟩ := orbisJitAlloc_served pf L hi hj
  obtain ⟨rfl, rfl⟩ := Prod.mk.inj (Option.some.inj (h.symm.trans halloc))
  have hg := L.good _ S.mem
  unfold RoundTrips
  rw [S.ptr L, show ((s.sArena.slot i).span.slot j).start + orbisJitAlign
    = ((s.sArena.slot i).span.slot j).start + 64 from rfl]
  by_cases hmax : size ≤ orbisJitMaxSize
  · obtain ⟨-, h128, h64, -⟩ := orbisJitBlockLen_spec hmax
    have hg' := goodArena_take hg S.shared S.spans S.le h64 S.spans' S.fields
    rw [S.free_block L hmax rfl, freeLists_set_eq S.lt, or_iff_left (fun h => by omega),
      and_iff_right (show 2 * orbisJitAlign ≤ _ from h128), ← nspans_take hg.few S.spans S.spans']
    constructor
    · intro hback
      by_contra hfull
      rw [orbisJitGive_full (Nat.not_lt.mp hfull)] at hback
      exact spans_take_ne S.spans S.spans' (by omega) hback
    · exact orbisJitGive_take hg hg' S.spans S.le (by omega) S.spans'
  · have hwrap := orbisJitBlockLen_wrap (Nat.not_le.mp hmax) hsize
    have hshort : orbisJitBlockLen size < 2 * orbisJitAlign := by unfold orbisJitAlign; omega
    rw [or_iff_right (fun h => absurd h.1 (Nat.not_le.mpr hshort))]
    rcases S.free_wrapped L hshort with ⟨⟨b, hb, hbd, hbp⟩, hlist⟩ | ⟨hnone, hlist⟩
    · refine iff_of_false (fun h => ?_) (fun h => h.2 b hb hbd hbp)
      rw [h] at hlist
      omega
    · rw [hlist, freeLists_set_eq S.lt, and_iff_left hnone]
      constructor
      · intro hsame
        by_contra hpos
        exact spans_take_ne S.spans S.spans' (Nat.pos_of_ne_zero hpos) hsame
      · -- nothing was taken
        intro hzero
        have hpos := hg.freeList.pos _ S.span_mem
        refine S.spans'.trans (Eq.trans ?_ S.spans.symm)
        rw [hzero]
        unfold dropFront
        rw [if_neg (by omega), List.append_assoc]
        rfl

end Pair

/-- **When an allocation and a free cancel.**  In every reachable world, for every size that
`orbis_jit_alloc` serves from an existing arena: freeing the pointer at once restores all free lists
exactly when the list of the arena has room, or the block was a whole span. -/
theorem Reaches.roundTrip_iff {anchor : ℕ} {mem : FlatMem} {cs : List Call} {w : World}
    (h : Reaches anchor (Call.AllocAtMost orbisJitMaxSize) mem cs w) {pf : Platform}
    {size flags i j p : ℕ} {s' : State} (hsize : size < 2 ^ 64)
    (hi : orbisJitScanIdx anchor w.st (orbisJitBlockLen size) flags = some i)
    (hj : orbisJitFirstFit (w.st.sArena.slot i) (orbisJitBlockLen size) = some j)
    (halloc : orbisJitAlloc anchor pf w.st size flags = some (s', p)) :
    (orbisJitFree s' p).freeLists = w.st.freeLists ↔
      RoundTrips w.st i j (orbisJitBlockLen size) :=
  Ledger.roundTrip h.ok hsize hi hj halloc

/-- A second block of 64 bytes from the arena of the first, and back. -/
theorem roundTrip_second : ∃ w s' p, Reaches 0 (Call.AllocAtMost orbisJitMaxSize) (fun _ => 0)
      [.alloc 64 0] w ∧ orbisJitAlloc 0 .idle w.st 64 0 = some (s', p) ∧
    (orbisJitFree s' p).freeLists = w.st.freeLists := by
  obtain ⟨⟨s, p⟩, hs, hp⟩ := Option.map_eq_some_iff.mp
    (show (orbisJitAlloc 0 .idle (State.init fun _ => 0) 64 0).map Prod.snd = some 0x200000040 by decide)
  have hstate : (orbisJitAlloc 0 .idle (State.init fun _ => 0) 64 0).map (fun r =>
      (orbisJitScanIdx 0 r.1 (orbisJitBlockLen 64) 0,
        orbisJitFirstFit (r.1.sArena.slot 0) (orbisJitBlockLen 64),
        decide ((r.1.sArena.slot 0).nspans < orbisJitMaxSpans),
        (orbisJitAlloc 0 .idle r.1 64 0).map Prod.snd)) =
      some (some 0, some 0, true, some 0x2000000c0) := by decide
  rw [hs] at hstate
  obtain ⟨hi, hstate⟩ := Prod.mk.inj (Option.some.inj hstate)
  obtain ⟨hj, hstate⟩ := Prod.mk.inj hstate
  obtain ⟨hroom, hptr⟩ := Prod.mk.inj hstate
  obtain ⟨⟨s', q⟩, hs', -⟩ := Option.map_eq_some_iff.mp hptr
  have hrun : Reaches 0 (Call.AllocAtMost orbisJitMaxSize) (fun _ => 0) [.alloc 64 0]
      ((World.init fun _ => 0).handOut s ⟨p, 64, false⟩) :=
    .cons ⟨show 64 ≤ orbisJitMaxSize by decide,
      .alloc .idle Platform.idle_documented (by norm_num) hs⟩ (.nil _)
  refine ⟨_, s', q, hrun, hs', (hrun.roundTrip_iff (by norm_num) hi hj hs').mpr (Or.inl ⟨?_, ?_⟩)⟩
  · decide
  · exact Or.inl (of_decide_eq_true hroom)

/-! ### A list that is full

An arena is filled with 510 blocks of the smallest size, and every other one of the first 509 is freed.
That leaves 255 spans of 128 bytes and the rest of the arena behind them. -/

/-- A console that has no more memory to give. -/
def Platform.exhausted : Platform where
  arenaMb := none
  virtualQuery := fun _ _ => some 0
  allocateDirectMemory := fun _ => none
  mapNamedDirectMemory := fun _ _ => none
  mprotect := fun _ _ => false
  callStub := fun _ => 0

theorem Platform.exhausted_documented (arenas : List OrbisJitArena) :
    Platform.exhausted.Documented arenas where
  query_mapped := by simp [exhausted]
  query_end := by
    intro k x e h
    rw [← Option.some.inj h]
    exact Nat.zero_le _
  allocate_zero := rfl
  map_user := by intro at' len got h; cases h
  map_fresh := by intro at' len got h; cases h

/-- The `k`th of the blocks. -/
def smallBlock (k : ℕ) : Handout := ⟨0x200000000 + 128 * k + 64, 64, false⟩

/-- The end of the arena, behind the first `n` blocks. -/
def restOf (n : ℕ) : Extent := ⟨0x200000000 + 128 * n, 0x1000000 - 128 * n⟩

/-- The first `m` of the freed blocks. -/
def comb (m : ℕ) : List Extent := (List.range m).map fun k => ⟨0x200000000 + 256 * k, 128⟩

/-- A world with one suballocated arena, with this free list and at least these live blocks. -/
structure OneList (w : World) (l : List Extent) (live : Set ℕ) : Prop where
  reached : ∃ cs, Reaches 0 (Call.AllocAtMost orbisJitMaxSize) (fun _ => 0) cs w
  one : w.st.sArenas = 1
  shared : (w.st.sArena.slot 0).dedicated = false
  spans : (w.st.sArena.slot 0).spans = l
  live : ∀ k ∈ live, smallBlock k ∈ w.live

/-- The request is served from the first span that is long enough. -/
theorem OneList.served {w : World} {pre post : List Extent} {e : Extent} {ks : Set ℕ}
    (O : OneList w (pre ++ e :: post) ks) {size : ℕ} (hpre : ∀ f ∈ pre, f.len < orbisJitBlockLen size)
    (he : orbisJitBlockLen size ≤ e.len) :
    orbisJitScanIdx 0 w.st (orbisJitBlockLen size) 0 = some 0 ∧
      orbisJitFirstFit (w.st.sArena.slot 0) (orbisJitBlockLen size) = some pre.length ∧
      (w.st.sArena.slot 0).span.slot pre.length = e := by
  have hspans : (w.st.sArena.slot 0).span.toList = pre ++ e :: post := O.spans
  have hslot := CTable.slot_of_split hspans
  refine ⟨CTable.firstIdx_eq_some.mpr ⟨?_, ?_, fun k hk => absurd hk (Nat.not_lt_zero k)⟩,
    CTable.firstIdx_eq_some.mpr ⟨?_, ?_, fun k hk => ?_⟩, hslot⟩
  · have := O.one
    unfold State.sArenas at this
    omega
  · have hsome : (orbisJitTake (w.st.sArena.slot 0) (orbisJitBlockLen size)).isSome = true := by
      rw [Option.isSome_iff_ne_none, ne_eq, orbisJitTake_eq_none]
      exact fun hall => absurd he (Nat.not_le.mpr (hall e (by rw [O.spans]; simp)))
    rw [hsome]
    unfold orbisJitServes
    rw [O.shared]
    rfl
  · have := CTable.n_of_split hspans
    omega
  · rw [hslot]
    simpa using he
  · have hk' : k < (w.st.sArena.slot 0).span.toList.length := by
      rw [hspans, List.length_append]
      omega
    have hmem : (w.st.sArena.slot 0).span.slot k ∈ pre := by
      rw [← CTable.getElem_toList _ k hk']
      simp only [hspans]
      rw [List.getElem_append_left hk]
      exact List.getElem_mem hk
    simpa using hpre _ hmem

/-- The first block brings the arena with it. -/
theorem oneList_first : ∃ w, OneList w [restOf 1] {k | k < 1} := by
  have hptr : (orbisJitAlloc 0 .idle (State.init fun _ => 0) 64 0).map Prod.snd
      = some 0x200000040 := by decide
  obtain ⟨⟨s, p⟩, hs, hp⟩ := Option.map_eq_some_iff.mp hptr
  obtain rfl : p = 0x200000040 := hp
  have hstate : (orbisJitAlloc 0 .idle (State.init fun _ => 0) 64 0).map (fun r =>
      (r.1.sArenas, (r.1.sArena.slot 0).dedicated, (r.1.sArena.slot 0).spans))
      = some (1, false, [restOf 1]) := by decide
  rw [hs] at hstate
  obtain ⟨hone, hrest⟩ := Prod.mk.inj (Option.some.inj hstate)
  obtain ⟨hshared, hspans⟩ := Prod.mk.inj hrest
  refine ⟨(World.init fun _ => 0).handOut s ⟨0x200000040, 64, false⟩, ⟨[.alloc 64 0], ?_⟩, hone, hshared,
    hspans, fun k hk => ?_⟩
  · exact .cons ⟨show 64 ≤ orbisJitMaxSize by decide,
      .alloc .idle Platform.idle_documented (by norm_num) hs⟩ (.nil _)
  · obtain rfl : k = 0 := Nat.lt_one_iff.mp hk
    exact List.mem_cons_self

/-- An allocation cuts the block off the span that serves it. -/
theorem OneList.alloc {w : World} {pre post : List Extent} {e : Extent} {ks : Set ℕ} (ks' : Set ℕ)
    (O : OneList w (pre ++ e :: post) ks) {size : ℕ} (hsize : size ≤ orbisJitMaxSize)
    (hpre : ∀ f ∈ pre, f.len < orbisJitBlockLen size) (he : orbisJitBlockLen size ≤ e.len)
    (hks : ∀ k ∈ ks', k ∈ ks ∨ smallBlock k = ⟨e.start + 64, size, false⟩) :
    ∃ w', OneList w' (pre ++ dropFront e (orbisJitBlockLen size) ++ post) ks' := by
  obtain ⟨cs, hreach⟩ := O.reached
  obtain ⟨hi, hj, hslot⟩ := O.served hpre he
  obtain ⟨a', S, halloc⟩ := orbisJitAlloc_served .exhausted hreach.ok hi hj
  rw [S.ptr hreach.ok, hslot] at halloc
  have htake : (w.st.sArena.slot 0).spans.take pre.length = pre := by rw [O.spans]; simp
  have hdrop : (w.st.sArena.slot 0).spans.drop (pre.length + 1) = post := by rw [O.spans]; simp
  have hspans := S.spans'
  rw [hslot, htake, hdrop] at hspans
  have hslot' : ∀ p, (w.st.taken 0 a' p (orbisJitBlockLen size)).sArena.slot 0 = a' := fun p =>
    CTable.set_slot_self _ _ _
  have hstep : Step 0 w (.alloc size 0) (w.handOut _ ⟨e.start + 64, size, false⟩) :=
    .alloc .exhausted (Platform.exhausted_documented _)
      (lt_of_le_of_lt hsize (by unfold orbisJitMaxSize; norm_num)) halloc
  have hok : Call.AllocAtMost orbisJitMaxSize (.alloc size 0) := hsize
  refine ⟨_, ⟨_, hreach.snoc ⟨hok, hstep⟩⟩, O.one, ?_, ?_, ?_⟩
  · show ((w.st.taken 0 a' _ _).sArena.slot 0).dedicated = false
    rw [hslot', S.fields]
    exact O.shared
  · show ((w.st.taken 0 a' _ _).sArena.slot 0).spans = _
    rw [hslot', hspans]
  · intro k hk
    unfold World.handOut
    rw [if_neg (Nat.succ_ne_zero _)]
    rcases hks k hk with hk | hk
    · exact List.mem_cons_of_mem _ (O.live k hk)
    · rw [hk]
      exact List.mem_cons_self

/-- The arena with `n` blocks in it. -/
theorem exists_filled : ∀ n < 510, ∃ w, OneList w [restOf (n + 1)] {k | k < n + 1} := by
  intro n
  induction n with
  | zero => exact fun _ => oneList_first
  | succ n ih =>
    intro hn
    obtain ⟨w, O⟩ := ih (by omega)
    have hlen : orbisJitBlockLen 64 = 128 := by decide
    have hfits : orbisJitBlockLen 64 ≤ (restOf (n + 1)).len := by
      rw [hlen]
      unfold restOf
      dsimp only
      omega
    have hcut : dropFront (restOf (n + 1)) (orbisJitBlockLen 64) = [restOf (n + 1 + 1)] := by
      rw [hlen]
      unfold dropFront restOf
      dsimp only
      rw [if_neg (by omega),
        show 0x200000000 + 128 * (n + 1) + 128 = 0x200000000 + 128 * (n + 1 + 1) by omega,
        show 0x1000000 - 128 * (n + 1) - 128 = 0x1000000 - 128 * (n + 1 + 1) by omega]
    obtain ⟨w', O'⟩ := OneList.alloc {k | k < n + 1 + 1} (show OneList w ([] ++ restOf (n + 1) :: []) _
      from O) (show 64 ≤ orbisJitMaxSize by decide) (by simp) hfits fun k hk => by
        rcases Nat.lt_succ_iff_lt_or_eq.mp hk with hk | rfl
        · exact Or.inl hk
        · exact Or.inr rfl
    rw [hcut] at O'
    exact ⟨w', O'⟩

/-- Freeing a block between spans that it does not touch. -/
theorem OneList.free {w : World} {pre post : List Extent} {ks : Set ℕ} {k b : ℕ} (ks' : Set ℕ)
    (O : OneList w (pre ++ post) ks) (hk : k ∈ ks) (hks : ∀ l ∈ ks', l ∈ ks ∧ l ≠ k)
    (hb : b = 0x200000000 + 128 * k) (hroom : (pre ++ post).length < orbisJitMaxSpans)
    (hpre : ∀ f ∈ pre, f.stop < b) (hpost : ∀ f ∈ post, b + 128 < f.start)
    (hfit : b + 128 < 2 ^ 64) : ∃ w', OneList w' (pre ++ ⟨b, 128⟩ :: post) ks' := by
  obtain ⟨cs, hreach⟩ := O.reached
  have hlive := O.live k hk
  obtain ⟨i, hi, hp, -, hfree, -⟩ := Ledger.free_block hreach.ok hlive rfl
  obtain rfl : i = 0 := Nat.lt_one_iff.mp (O.one ▸ hi)
  have hg := hreach.ok.good _ (CTable.mem_toList.mpr ⟨0, hi, rfl⟩)
  have hblk : (smallBlock k).ptr - 64 = b := hb.symm
  have hlen : orbisJitBlockLen (smallBlock k).size = 128 := show orbisJitBlockLen 64 = 128 by decide
  rw [hblk, hlen] at hfree
  -- the block goes between the spans in front of it and those behind it
  have hidx : orbisJitGiveIdx (w.st.sArena.slot 0) b = pre.length := by
    refine orbisJitGiveIdx_eq O.spans (fun f hf => ?_) fun f hf => ?_
    · have := hpre f hf
      unfold stop at this
      omega
    · have := hpost f (List.mem_of_mem_head? hf)
      omega
  have hfew : (w.st.sArena.slot 0).nspans < orbisJitMaxSpans := by
    rw [← OrbisJitArena.length_spans, O.spans]
    exact hroom
  -- and it joins none of them
  have hgive : (orbisJitGive (w.st.sArena.slot 0) b 128).spans = pre ++ ⟨b, 128⟩ :: post := by
    have hjoin : joinAround pre ⟨b, 128⟩ post = pre ++ ⟨b, 128⟩ :: post :=
      joinAround_of_lt hpre fun f hf => hpost f (List.mem_of_mem_head? hf)
    rw [orbisJitGive_spans hg.fits hfit hfew, hidx, O.spans, List.take_left', List.drop_left', hjoin]
    · rfl
    · rfl
  have hstep : Step 0 w (.free (smallBlock k).ptr) (w.giveBack (smallBlock k)) := .free hlive
  have hok : Call.AllocAtMost orbisJitMaxSize (.free (smallBlock k).ptr) := trivial
  refine ⟨_, ⟨_, hreach.snoc ⟨hok, hstep⟩⟩, ?_, ?_, ?_, fun l hl => ?_⟩
  · show (orbisJitFree w.st (smallBlock k).ptr).sArenas = 1
    rw [hfree]
    exact O.one
  · show ((orbisJitFree w.st (smallBlock k).ptr).sArena.slot 0).dedicated = false
    rw [hfree]
    dsimp only
    rw [CTable.set_slot_self, orbisJitGive_fields]
    exact O.shared
  · show ((orbisJitFree w.st (smallBlock k).ptr).sArena.slot 0).spans = _
    rw [hfree]
    dsimp only
    rw [CTable.set_slot_self, hgive]
  · obtain ⟨hlk, hne⟩ := hks l hl
    refine (List.mem_erase_of_ne fun heq => hne ?_).mpr (O.live l hlk)
    have := congrArg Handout.ptr heq
    unfold smallBlock at this
    dsimp only at this
    omega

theorem mem_comb {m : ℕ} {f : Extent} (hf : f ∈ comb m) :
    ∃ k < m, f = ⟨0x200000000 + 256 * k, 128⟩ := by
  obtain ⟨k, hk, rfl⟩ := List.mem_map.mp hf
  exact ⟨k, List.mem_range.mp hk, rfl⟩

/-- The arena with `m` of the blocks freed. -/
theorem exists_comb : ∀ m ≤ 255, ∃ w, OneList w (comb m ++ [restOf 510]) {k | 2 * m ≤ k ∧ k < 510} := by
  intro m
  induction m with
  | zero =>
    intro _
    obtain ⟨w, O⟩ := exists_filled 509 (by norm_num)
    exact ⟨w, O.reached, O.one, O.shared, O.spans, fun k hk => O.live k hk.2⟩
  | succ m ih =>
    intro hm
    obtain ⟨w, O⟩ := ih (by omega)
    have hroom : (comb m ++ [restOf 510]).length < orbisJitMaxSpans := by
      unfold comb orbisJitMaxSpans
      simp
      omega
    have hpre : ∀ f ∈ comb m, f.stop < 0x200000000 + 256 * m := by
      intro f hf
      obtain ⟨k, hk, rfl⟩ := mem_comb hf
      unfold stop
      dsimp only
      omega
    have hpost : ∀ f ∈ [restOf 510], 0x200000000 + 256 * m + 128 < f.start := by
      intro f hf
      obtain rfl := List.mem_singleton.mp hf
      unfold restOf
      dsimp only
      omega
    obtain ⟨w', O'⟩ := O.free {k | 2 * (m + 1) ≤ k ∧ k < 510}
      (show 2 * m ∈ {k | 2 * m ≤ k ∧ k < 510} from ⟨le_rfl, by omega⟩)
      (fun l hl => ⟨⟨by have := hl.1; omega, hl.2⟩, by have := hl.1; omega⟩)
      (by omega) hroom hpre hpost (by omega)
    refine ⟨w', ?_⟩
    have hcomb : comb (m + 1) = comb m ++ [⟨0x200000000 + 256 * m, 128⟩] := by
      unfold comb
      rw [List.range_succ, List.map_append]
      rfl
    rw [hcomb, List.append_assoc]
    exact O'

/-- **A block is lost.**  With 256 spans in the list, a block of 192 bytes is cut off the last of them, and
freeing it at once does not put it back. -/
theorem not_roundTrips_full : ∃ cs w s' p,
    Reaches 0 (Call.AllocAtMost orbisJitMaxSize) (fun _ => 0) cs w ∧
    (w.st.sArena.slot 0).nspans = 256 ∧
    orbisJitScanIdx 0 w.st (orbisJitBlockLen 128) 0 = some 0 ∧
    orbisJitAlloc 0 .exhausted w.st 128 0 = some (s', p) ∧
    (orbisJitFree s' p).freeLists ≠ w.st.freeLists := by
  obtain ⟨w, O⟩ := exists_comb 255 le_rfl
  obtain ⟨cs, hreach⟩ := O.reached
  have hlen : orbisJitBlockLen 128 = 192 := by decide
  have hpre : ∀ f ∈ comb 255, f.len < orbisJitBlockLen 128 := by
    intro f hf
    obtain ⟨k, -, rfl⟩ := mem_comb hf
    rw [hlen]
    norm_num
  have hfits : orbisJitBlockLen 128 ≤ (restOf 510).len := by rw [hlen]; decide
  obtain ⟨hi, hj, hslot⟩ := O.served hpre hfits
  obtain ⟨a', -, halloc⟩ := orbisJitAlloc_served .exhausted hreach.ok hi hj
  have hn : (w.st.sArena.slot 0).nspans = 256 := by
    rw [← OrbisJitArena.length_spans, O.spans]
    unfold comb
    simp
  refine ⟨cs, w, _, _, hreach, hn, hi, halloc, fun hback => ?_⟩
  have htrip := (Ledger.roundTrip hreach.ok (by norm_num) hi hj halloc).mp hback
  unfold RoundTrips at htrip
  rw [hn, hslot, hlen] at htrip
  rcases htrip with ⟨-, hroom | hwhole⟩ | ⟨hzero, -⟩
  · exact absurd hroom (by decide)
  · exact absurd hwhole (by decide)
  · exact absurd hzero (by decide)

end OrbisCompat.Jit
