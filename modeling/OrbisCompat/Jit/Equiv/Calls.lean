import OrbisCompat.Jit.Equiv.Invariant

/-!
# The four entry points keep the ledger

`orbisJitAlloc_spec`, `orbisJitAllocAt_spec` and `World.Ok.giveBack` are the specifications of the
calls; `World.Ok.step` puts them together, and `Reaches.ok` carries the ledger over whole runs.
-/

namespace OrbisCompat.Jit

open Extent

variable {live : List Handout} {dropped : List Extent}

/-! ### `orbis_jit_alloc` -/

/-- `orbis_jit_alloc` answers `NULL`, or takes from an arena that is not dedicated: one that was there
and serves the request, or the one that it has just added. -/
theorem orbisJitAlloc_cases {anchor size flags p : ℕ} {pf : Platform} {s s' : State}
    (L : s.Ok live dropped) (hpf : pf.Documented s.arenas)
    (h : orbisJitAlloc anchor pf s size flags = some (s', p)) :
    p = 0 ∧ s'.Ok live dropped ∨
      ∃ (t : State) (i : ℕ) (r : State × ℕ), t.Ok live dropped ∧ i < t.sArenas ∧
        (t.sArena.slot i).dedicated = false ∧
        (orbisJitServes anchor flags (t.sArena.slot i) = true ∨
          Grown anchor pf (orbisJitBlockLen size) flags (t.sArena.slot i)) ∧
        t.takeAt i (orbisJitBlockLen size) = some r ∧
        orbisJitHeader r.1 r.2 (orbisJitBlockLen size) = (s', p) := by
  have hlen : orbisJitBlockLen size < 2 ^ 64 := Nat.mod_lt _ (by norm_num)
  rcases orbisJitAlloc_inversion h with ⟨i, hi, hserves, r, htake, hr⟩ | ⟨s₁, grown, hgrow, hres⟩
  · exact Or.inr ⟨s, i, r, L, hi, dedicated_of_serves hserves, Or.inl hserves, htake, hr⟩
  · obtain ⟨L₁, hlast⟩ := orbisJitGrow_spec L hpf hlen hgrow
    rcases hres with ⟨rfl, rfl⟩ | ⟨rfl, r, htake, hr⟩
    · exact Or.inl ⟨rfl, L₁⟩
    · -- the new arena is the last one
      obtain ⟨hn, hnew⟩ := hlast rfl
      exact Or.inr ⟨s₁, _, r, L₁, Nat.sub_lt hn Nat.one_pos, hnew.shared, Or.inr hnew, htake, hr⟩

/-- **`orbis_jit_alloc`** hands out a block, or nothing. -/
theorem orbisJitAlloc_spec {anchor size flags p : ℕ} {pf : Platform} {s s' : State}
    (L : s.Ok live dropped) (hpf : pf.Documented s.arenas) (hsize : size ≤ orbisJitMaxSize)
    (h : orbisJitAlloc anchor pf s size flags = some (s', p)) :
    s'.Ok (if p = 0 then live else ⟨p, size, false⟩ :: live) dropped := by
  rcases orbisJitAlloc_cases L hpf h with ⟨hp, L'⟩ | ⟨t, i, ⟨t', q⟩, Lt, hi, hded, -, htake, hr⟩
  · rw [if_pos hp]
    exact L'
  · obtain ⟨hpos, L'⟩ := takeAt_spec Lt hi hded hsize htake
    dsimp only at hr
    rw [hr] at hpos L'
    rw [if_neg (Nat.ne_of_gt hpos)]
    exact L'

/-! ### `orbis_jit_alloc_at` -/

/-- **`orbis_jit_alloc_at`** adds a dedicated arena for its caller, or nothing. -/
theorem orbisJitAllocAt_spec {addr size p : ℕ} {pf : Platform} {s s' : State}
    (L : s.Ok live dropped) (hpf : pf.Documented s.arenas)
    (h : orbisJitAllocAt pf s addr size = some (s', p)) :
    s'.Ok (if p = 0 then live else ⟨p, size, true⟩ :: live) dropped := by
  obtain ⟨hdvd, hlt⟩ := orbisJitMapLen_spec size
  rcases orbisJitAllocAt_inversion h with
    ⟨rfl, rfl⟩ | ⟨-, haligned, hroom, ⟨found, h0, hfound⟩, s₁, r, hmap, hres⟩
  · exact L
  obtain ⟨hsame, L₁, hsome⟩ := orbisJitMap_spec L hpf
    (fun _ _ hg => hg.apart_search hpf L.inGranules haligned hdvd hlt hfound h0) hmap
  rcases hres with ⟨rfl, rfl, rfl⟩ | ⟨base, size', phys, hr, rfl, rfl⟩
  · exact L₁
  obtain ⟨rfl, hg, hap⟩ := hsome p size' phys hr
  obtain ⟨hpos, hbase, hbd, hu⟩ := hg.spec hpf
  rw [if_neg (Nat.ne_of_gt hbase)]
  set a : OrbisJitArena := .owned p (orbisJitMapLen size) phys with ha
  have hae : (⟨p, size, true⟩ : Handout).extent = a.extent := Handout.extent_dedicated rfl
  have has : s₁.arenas = s.arenas := by unfold State.arenas; rw [hsame]
  show Ledger (CTable.toList _) s₁.mem _ dropped
  rw [State.sArenas, CTable.toList_push]
  refine L₁.push [⟨p, size, true⟩] ?_
    ⟨hbase, hpos, hbd, hdvd, hu, FreeList.nil, Nat.zero_le _, fun _ => rfl⟩ ?_ ?_ ?_
  · show (CTable.toList _).length < _
    rw [CTable.length_toList, hsame]
    exact hroom
  · show ∀ b ∈ s₁.arenas, _
    rw [has]
    exact hap
  · intro h hh
    obtain rfl := List.mem_singleton.mp hh
    refine ⟨rfl, ?_, ?_, fun _ => hae, by simp⟩
    · rw [hae]; exact ⟨le_rfl, le_rfl⟩
    · rw [hae]; exact hpos
  · intro x hx
    show 0 + cover [(⟨p, size, true⟩ : Handout).extent] x = 1
    rw [hae, cover_cons, if_pos hx]
    rfl

/-! ### `orbis_jit_free` -/

/-- A header that `orbis_jit_alloc` wrote passes the check. -/
theorem orbisJitHeaderOk_of_within {a : OrbisJitArena} {blk size : ℕ} (hg : GoodArena a)
    (hsize : size ≤ orbisJitMaxSize) (hw : Within ⟨blk, orbisJitBlockLen size⟩ a.extent) :
    orbisJitHeaderOk a blk (orbisJitBlockLen size) = true := by
  obtain ⟨-, h128, hdvd, -⟩ := orbisJitBlockLen_spec hsize
  obtain ⟨-, hw2⟩ := hw
  have hu := hg.user
  rw [OrbisJitArena.extent_stop, stop] at hw2
  dsimp only at hw2
  unfold userEnd at hu
  have hmask : orbisJitBlockLen size &&& (orbisJitAlign - 1) = 0 := by
    rw [show orbisJitAlign - 1 = 2 ^ 6 - 1 from rfl, Nat.and_two_pow_sub_one_eq_mod]
    omega
  unfold orbisJitHeaderOk
  have hshort : decide (orbisJitBlockLen size < 2 * orbisJitAlign) = false :=
    decide_eq_false (by unfold orbisJitAlign; omega)
  have hpast : decide (blk + orbisJitBlockLen size > a.base + a.size) = false :=
    decide_eq_false (by omega)
  rw [hmask, Word64.add_of_lt (by omega), Word64.add_of_lt (by omega), hshort, hpast]
  rfl

/-- The insertion index separates the spans below the block from those above it. -/
theorem orbisJitGiveIdx_sides {a : OrbisJitArena} {p len : ℕ} {region : Extent} {unit : ℕ}
    (hFL : FreeList region unit a.spans) (hlen : 0 < len)
    (hcov : ∀ x, cover a.spans x + cover [⟨p, len⟩] x ≤ 1) :
    (∀ f ∈ a.spans.take (orbisJitGiveIdx a p), f.stop ≤ p) ∧
      ∀ f ∈ a.spans.drop (orbisJitGiveIdx a p), p + len ≤ f.start := by
  obtain ⟨-, hbelow, hhead⟩ := orbisJitGiveIdx_spec a p
  have hap : ∀ f ∈ a.spans, Apart ⟨p, len⟩ f := fun f hf =>
    apart_of_cover_le_one hlen (hFL.pos f hf) hcov hf
  constructor
  · intro f hf
    have hstart := hbelow f hf
    rcases hap f (List.mem_of_mem_take hf) with h | h
    · unfold stop at h; dsimp only at h; omega
    · exact h
  · intro f hf
    have hmem := List.mem_of_mem_drop hf
    have hpos := hFL.pos f hmem
    -- the list is sorted, so every member past the index starts no earlier than the first of them
    have hge : p ≤ f.start := by
      have hsep : Separated (a.spans.drop (orbisJitGiveIdx a p)) :=
        hFL.separated.sublist (List.drop_sublist _ _)
      cases hd : a.spans.drop (orbisJitGiveIdx a p) with
      | nil => rw [hd] at hf; cases hf
      | cons g l =>
        rw [hd] at hf hsep hhead
        have hg : p ≤ g.start := hhead g rfl
        rcases List.mem_cons.mp hf with rfl | hf
        · exact hg
        · have := (List.pairwise_cons.mp hsep).1 f hf
          unfold stop at this
          omega
    rcases hap f hmem with h | h
    · exact h
    · unfold stop at h; dsimp only at h; omega

/-- **Giving**: what is covered by the arena's list afterwards is what was before and the block. -/
theorem goodArena_give {a : OrbisJitArena} {p len : ℕ} (hg : GoodArena a)
    (hded : a.dedicated = false) (hroom : a.nspans < orbisJitMaxSpans) (hlen : 0 < len)
    (hw : Within ⟨p, len⟩ a.extent) (hp : 64 ∣ p) (hl : 64 ∣ len)
    (hcov : ∀ x, cover a.spans x + cover [⟨p, len⟩] x ≤ 1) :
    GoodArena (orbisJitGive a p len) ∧ ∀ x,
      cover (orbisJitGive a p len).spans x = cover a.spans x + cover [⟨p, len⟩] x := by
  have hstop : p + len < 2 ^ 64 := by
    have h1 := hw.2
    have h2 := hg.user
    rw [OrbisJitArena.extent_stop, stop] at h1
    unfold userEnd at h2
    dsimp only at h1
    omega
  have hspans := orbisJitGive_spans hg.fits hstop hroom
  obtain ⟨hbelow, habove⟩ := orbisJitGiveIdx_sides hg.freeList hlen hcov
  have hfields := orbisJitGive_fields a p len
  have hFL : FreeList a.extent orbisJitAlign (orbisJitGive a p len).spans := by
    rw [hspans]
    refine FreeList.give ?_ hlen hw hp hl hbelow habove
    rw [List.take_append_drop]
    exact hg.freeList
  have hfew : (orbisJitGive a p len).spans.length ≤ orbisJitMaxSpans := by
    have h1 := length_joinAround_le (a.spans.take (orbisJitGiveIdx a p)) ⟨p, len⟩
      (a.spans.drop (orbisJitGiveIdx a p))
    rw [← List.length_append, List.take_append_drop, OrbisJitArena.length_spans] at h1
    rw [hspans]
    omega
  rw [OrbisJitArena.length_spans] at hfew
  refine ⟨?_, fun x => ?_⟩
  · have hded' : (orbisJitGive a p len).dedicated = false := by rw [hfields]; exact hded
    constructor
    · rw [hfields]; exact hg.base_pos
    · rw [hfields]; exact hg.size_pos
    · rw [hfields]; exact hg.base_dvd
    · rw [hfields]; exact hg.size_dvd
    · rw [hfields]; exact hg.user
    · have he : (orbisJitGive a p len).extent = a.extent := by rw [hfields]; rfl
      rw [he]; exact hFL
    · exact hfew
    · rw [hded']; simp
  · rw [hspans, cover_joinAround, List.take_append_drop]

/-- A live pointer lies in its arena, and is not `NULL`. -/
theorem Placed.ptr_mem {mem : FlatMem} {h : Handout} {a : OrbisJitArena} (hp : Placed mem h a)
    (hg : GoodArena a) : h.ptr ∈ a.extent ∧ 0 < h.ptr := by
  cases hd : h.dedicated with
  | true =>
    have hwhole := hp.whole hd
    rw [Handout.extent_dedicated hd] at hwhole
    have hbase : h.ptr = a.base := congrArg Extent.start hwhole
    rw [hbase]
    exact ⟨hg.base_mem, hg.base_pos⟩
  | false =>
    -- the pointer is past the header unit, and the block is longer than that
    obtain ⟨-, h64, hsize, -⟩ := hp.block hd
    have := orbisJitBlockLen_spec hsize
    refine ⟨hp.within.mem ?_, by omega⟩
    rw [Handout.extent_block hd, mem_iff]
    dsimp only
    omega

/-- `orbis_jit_free` of an address in the arena `i`, and what it loses. -/
theorem orbisJitFree_eq {s : State} {p i : ℕ} (hp : 0 < p) (hi : orbisJitArenaOf s p = some i) :
    (orbisJitFree s p = if (s.sArena.slot i).dedicated then
      (if p ≠ (s.sArena.slot i).base then s else s.dropArena i)
      else if orbisJitHeaderOk (s.sArena.slot i) (Word64.sub p orbisJitAlign)
          (s.mem.load64 (Word64.sub p orbisJitAlign)) then
        { s with sArena := s.sArena.set i (orbisJitGive (s.sArena.slot i)
          (Word64.sub p orbisJitAlign) (s.mem.load64 (Word64.sub p orbisJitAlign))) }
      else s) ∧
    orbisJitDropsAt s p = (!(s.sArena.slot i).dedicated &&
      decide (orbisJitMaxSpans ≤ (s.sArena.slot i).nspans)) := by
  constructor
  · unfold orbisJitFree
    rw [if_neg (Nat.ne_of_gt hp), hi]
  · unfold orbisJitDropsAt
    rw [hi]

/-- **A block comes back** to an arena with room in its list. -/
theorem Ledger.give {l₁ l₂ : List OrbisJitArena} {a : OrbisJitArena} {mem : FlatMem} {h : Handout}
    (L : Ledger (l₁ ++ a :: l₂) mem live dropped) (hl : h ∈ live) (hp : Placed mem h a)
    (hd : a.dedicated = false) (hroom : a.nspans < orbisJitMaxSpans) :
    Ledger (l₁ ++ orbisJitGive a (h.ptr - 64) (orbisJitBlockLen h.size) :: l₂) mem (live.erase h)
      dropped := by
  have hg := L.good a (by simp)
  obtain ⟨h64, hle, hsize, -⟩ := hp.block (by rw [hp.kind, hd])
  obtain ⟨-, hl128, hl64, -⟩ := orbisJitBlockLen_spec hsize
  have hext := Handout.extent_block (h := h) (by rw [hp.kind, hd])
  have hwithin := hp.within
  rw [hext] at hwithin
  have herase := cover_held_erase hl
  have hcov : ∀ x, cover a.spans x + cover [⟨h.ptr - 64, orbisJitBlockLen h.size⟩] x ≤ 1 := by
    intro x
    rw [← hext]
    by_cases hx : x ∈ a.extent
    · have := L.covered a (by simp) x hx
      have := herase x
      omega
    · have h1 := hg.span_mem hx
      have h2 : cover [h.extent] x = 0 :=
        cover_eq_zero.mpr (by simpa using fun hxh => hx (hp.within.mem hxh))
      omega
  obtain ⟨hg', hcov'⟩ := goodArena_give hg hd hroom (by omega) hwithin (by omega) hl64 hcov
  have hfields := orbisJitGive_fields a (h.ptr - 64) (orbisJitBlockLen h.size)
  have hae : (orbisJitGive a (h.ptr - 64) (orbisJitBlockLen h.size)).extent = a.extent := by
    rw [hfields]
    rfl
  have had : (orbisJitGive a (h.ptr - 64) (orbisJitBlockLen h.size)).dedicated = a.dedicated := by
    rw [hfields]
  refine L.modify hg' hae (fun x => ?_) (fun h' hh' => ?_) fun e he => ?_
  · -- the free list gains what the live blocks lose
    have := herase x
    rw [hext] at this
    rw [hcov' x]
    omega
  · exact exists_mem_replace (fun hpa => hpa.congr had hae) (L.placed h' (List.mem_of_mem_erase hh'))
  · exact exists_mem_replace (fun hpa => by rwa [had, hae]) (L.lost e he)

/-- **A block is lost** when the list is full, until the arena is released. -/
theorem Ledger.drop {l₁ l₂ : List OrbisJitArena} {a : OrbisJitArena} {mem : FlatMem} {h : Handout}
    (L : Ledger (l₁ ++ a :: l₂) mem live dropped) (hl : h ∈ live) (hp : Placed mem h a)
    (hd : a.dedicated = false) :
    Ledger (l₁ ++ a :: l₂) mem (live.erase h) (h.extent :: dropped) := by
  refine L.modify (L.good a (by simp)) rfl (fun x => ?_)
    (fun h' hh' => L.placed h' (List.mem_of_mem_erase hh')) fun e he => ?_
  · have := cover_held_erase hl x
    simp only [cover_cons h.extent dropped]
    simp only [cover_cons h.extent [], cover_nil] at this
    omega
  · rcases List.mem_cons.mp he with rfl | he
    · exact ⟨a, by simp, hd, hp.within⟩
    · exact L.lost e he

/-- **`orbis_jit_free`** of a live block: its arena is found, and its header is trusted. -/
theorem Ledger.free_block {s : State} {h : Handout} (L : s.Ok live dropped) (hl : h ∈ live)
    (hkind : h.dedicated = false) :
    ∃ i < s.sArenas, Placed s.mem h (s.sArena.slot i) ∧ (s.sArena.slot i).dedicated = false ∧
      orbisJitFree s h.ptr = { s with sArena := s.sArena.set i (orbisJitGive (s.sArena.slot i)
        (h.ptr - 64) (orbisJitBlockLen h.size)) } ∧
      orbisJitDropsAt s h.ptr = decide (orbisJitMaxSpans ≤ (s.sArena.slot i).nspans) := by
  obtain ⟨a, ha, hp⟩ := L.placed h hl
  have hg := L.good a ha
  obtain ⟨hmem, hpos⟩ := hp.ptr_mem hg
  obtain ⟨i, hi, harena, rfl⟩ :=
    orbisJitArenaOf_of_mem (fun a ha => (L.good a ha).user) L.apart ha hmem
  obtain ⟨hfree, hdrop⟩ := orbisJitFree_eq hpos harena
  have hd : (s.sArena.slot i).dedicated = false := hp.kind.symm.trans hkind
  obtain ⟨-, hle, hsize, hload⟩ := hp.block hkind
  have hwithin := hp.within
  rw [Handout.extent_block hkind] at hwithin
  have hsub : Word64.sub h.ptr orbisJitAlign = h.ptr - 64 := by
    refine Word64.sub_of_le hle ?_
    have h1 := hmem.2
    have h2 := hg.user
    rw [OrbisJitArena.extent_stop] at h1
    unfold userEnd at h2
    omega
  rw [hd, hsub, hload, orbisJitHeaderOk_of_within hg hsize hwithin, if_neg (by simp), if_pos rfl]
    at hfree
  rw [hd] at hdrop
  exact ⟨i, hi, hp, hd, hfree, hdrop⟩

/-- The table split at an arena. -/
theorem Ledger.split {s : State} (L : s.Ok live dropped) {i : ℕ} (hi : i < s.sArenas) :
    Ledger (s.arenas.take i ++ s.sArena.slot i :: s.arenas.drop (i + 1)) s.mem live dropped := by
  have hsplit : s.arenas = s.arenas.take i ++ s.sArena.slot i :: s.arenas.drop (i + 1) :=
    CTable.toList_split _ hi
  rw [← hsplit]
  exact L

/-- **`orbis_jit_free`** of a live pointer takes its block, or its arena, back. -/
theorem World.Ok.giveBack {w : World} {h : Handout} (L : w.Ok) (hl : h ∈ w.live) :
    (w.giveBack h).Ok := by
  unfold World.giveBack World.Ok
  cases hkind : h.dedicated with
  | true =>
    obtain ⟨a, ha, hp⟩ := L.placed h hl
    obtain ⟨hmem, hpos⟩ := hp.ptr_mem (L.good a ha)
    obtain ⟨i, hi, harena, rfl⟩ :=
      orbisJitArenaOf_of_mem (fun a ha => (L.good a ha).user) L.apart ha hmem
    obtain ⟨hfree, hdrop⟩ := orbisJitFree_eq hpos harena
    have hd : (w.st.sArena.slot i).dedicated = true := hp.kind.symm.trans hkind
    have hwhole := hp.whole hkind
    rw [Handout.extent_dedicated hkind] at hwhole
    have hbase : h.ptr = (w.st.sArena.slot i).base := congrArg Extent.start hwhole
    rw [hfree, hdrop, hd, if_pos rfl, if_neg (by simpa using hbase)]
    show Ledger (w.st.dropArena i).arenas w.st.mem _ w.dropped
    rw [dropArena_arenas hi]
    exact (Ledger.split L hi).remove hl hp hd
  | false =>
    obtain ⟨i, hi, hp, hd, hfree, hdrop⟩ := Ledger.free_block L hl hkind
    rw [hfree, hdrop]
    show Ledger (w.st.sArena.set i _).toList w.st.mem _ _
    rw [CTable.toList_set_split _ _ hi]
    by_cases hroom : (w.st.sArena.slot i).nspans < orbisJitMaxSpans
    · rw [decide_eq_false (Nat.not_le.mpr hroom)]
      exact (Ledger.split L hi).give hl hp hd hroom
    · rw [decide_eq_true (Nat.not_lt.mp hroom), orbisJitGive_full (Nat.not_lt.mp hroom)]
      exact (Ledger.split L hi).drop hl hp hd

/-! ### Runs -/

/-- Every call keeps the ledger, when no requested block length wraps. -/
theorem World.Ok.step {anchor : ℕ} {w w' : World} {c : Call} (L : w.Ok)
    (hc : c.AllocAtMost orbisJitMaxSize) (h : Step anchor w c w') : w'.Ok := by
  cases h with
  | alloc pf hpf _ h => exact orbisJitAlloc_spec L hpf hc h
  | allocAt pf hpf _ h => exact orbisJitAllocAt_spec L hpf h
  | free hl => exact L.giveBack hl
  | releaseAll => exact Ledger.empty
  | write mem h => exact L.frame h

/-- The ledger holds in every reachable world. -/
theorem Reaches.ok {anchor : ℕ} {mem : FlatMem} {cs : List Call} {w : World}
    (h : Reaches anchor (Call.AllocAtMost orbisJitMaxSize) mem cs w) : w.Ok :=
  Lts.Run.preserves (P := World.Ok) (fun _ _ _ L hs => L.step hs.1 hs.2) h Ledger.empty

end OrbisCompat.Jit
