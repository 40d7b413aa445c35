import OrbisCompat.Jit.Equiv.FreeList
import OrbisCompat.Jit.Equiv.Ledger
import OrbisCompat.Jit.Equiv.Placing

/-!
# Every call keeps the ledger

One lemma for each function of `orbis_jit.c` that touches the table: what it leaves is a ledger of
the new arenas, the new memory and the new record of live and dropped blocks.  The last of them,
`World.Ok.step`, is the step lemma of the system, and `Reaches.ok` carries it over whole runs.
-/

namespace OrbisCompat.Jit

open Extent

variable {live : List Handout} {dropped : List Extent}

/-- The ledger of a state. -/
abbrev State.Ok (s : State) (live : List Handout) (dropped : List Extent) : Prop :=
  Ledger s.arenas s.mem live dropped

/-- Replacing one arena keeps a property of some arena, when the replacement inherits it. -/
theorem exists_mem_replace {P : OrbisJitArena → Prop} {l₁ l₂ : List OrbisJitArena}
    {a a' : OrbisJitArena} (ha : P a → P a') (h : ∃ b ∈ l₁ ++ a :: l₂, P b) :
    ∃ b ∈ l₁ ++ a' :: l₂, P b := by
  obtain ⟨b, hb, hP⟩ := h
  simp only [List.mem_append, List.mem_cons] at hb
  rcases hb with hb | rfl | hb
  · exact ⟨b, List.mem_append_left _ hb, hP⟩
  · exact ⟨a', by simp, ha hP⟩
  · exact ⟨b, List.mem_append_right _ (List.mem_cons_of_mem _ hb), hP⟩

theorem Ledger.inGranules {as : List OrbisJitArena} {mem : FlatMem}
    (L : Ledger as mem live dropped) : ∀ a ∈ as, a.InGranules := fun a ha =>
  have hg := L.good a ha
  ⟨hg.size_pos, hg.base_dvd, hg.size_dvd⟩

/-! ### Memory -/

theorem Placed.header_mem {mem : FlatMem} {h : Handout} {a : OrbisJitArena} (hp : Placed mem h a)
    (hd : h.dedicated = false) {x : ℕ} (hx : h.ptr - 64 ≤ x) (hx' : x < h.ptr) : x ∈ h.extent := by
  obtain ⟨-, h64, hsize, -⟩ := hp.block hd
  have := orbisJitBlockLen_spec hsize
  rw [Handout.extent_block hd, mem_iff]
  dsimp only
  omega

/-- Memory outside the arenas may change. -/
theorem Ledger.frame_outside {as : List OrbisJitArena} {mem mem' : FlatMem}
    (L : Ledger as mem live dropped) (hm : ∀ a ∈ as, ∀ x ∈ a.extent, mem' x = mem x) :
    Ledger as mem' live dropped := by
  refine L.frame fun h hh hd x hx hx' => ?_
  obtain ⟨a, ha, hp⟩ := L.placed h hh
  exact hm a ha x (hp.within.mem (hp.header_mem hd hx hx'))

/-! ### Mapping -/

/-- **`orbis_jit_map`** leaves the table alone, writes outside the arenas only, and on success has
mapped a range that is apart from all of them. -/
theorem orbisJitMap_spec {pf : Platform} {s s' : State} {at' len : ℕ} {r : Option (ℕ × ℕ × ℕ)}
    (L : s.Ok live dropped) (hpf : pf.Documented s.arenas)
    (hap : ∀ base phys, Granted pf at' len base phys → ∀ a ∈ s.arenas, Apart ⟨base, len⟩ a.extent)
    (h : orbisJitMap pf s at' len = (s', r)) :
    s'.sArena = s.sArena ∧ s'.Ok live dropped ∧ ∀ base size phys, r = some (base, size, phys) →
      size = len ∧ Granted pf at' len base phys ∧ ∀ a ∈ s.arenas, Apart ⟨base, len⟩ a.extent := by
  obtain ⟨hsame, hmem, hres⟩ := orbisJitMap_cases hpf h
  have harenas : s'.arenas = s.arenas := by unfold State.arenas; rw [hsame]
  refine ⟨hsame, ?_, fun base size phys hr => ?_⟩
  · unfold State.Ok
    rw [harenas]
    rcases hmem with hmem | ⟨got, phys, hg, hmem⟩
    · rw [hmem]
      exact L
    · -- the stub is written into the new mapping
      obtain ⟨hlen, -, hdvd, -⟩ := hg.spec hpf
      rw [hmem]
      refine L.frame_outside fun a ha x hx => FlatMem.store_of_not_mem ?_
      have hgood := L.good a ha
      have hbase := hgood.base_dvd
      have hsize := hgood.size_dvd
      have hapart := hap got phys hg a ha
      have hstub : orbisJitStub.length = 6 := rfl
      rw [mem_iff, OrbisJitArena.extent_start, OrbisJitArena.extent_len] at hx
      unfold Apart stop at hapart
      simp only [OrbisJitArena.extent_start, OrbisJitArena.extent_len] at hapart
      omega
  · rcases hres with ⟨rfl, -⟩ | ⟨base', phys', rfl, hg, -⟩
    · cases hr
    · obtain ⟨rfl, rfl, rfl⟩ : base' = base ∧ len = size ∧ phys' = phys := by simpa using hr
      exact ⟨rfl, hg, hap _ _ hg⟩

theorem goodArena_fresh {base size phys : ℕ} (hbase : 0 < base) (hsize : 0 < size)
    (hb : 16384 ∣ base) (hs : 16384 ∣ size) (hu : base + size ≤ userEnd) :
    GoodArena (orbisJitFresh base size phys) where
  base_pos := hbase
  size_pos := hsize
  base_dvd := hb
  size_dvd := hs
  user := hu
  freeList := FreeList.singleton (e := ⟨base, size⟩) hsize ⟨le_rfl, le_rfl⟩
    (by unfold orbisJitAlign; dsimp only; omega) (by unfold orbisJitAlign; dsimp only; omega)
  few := by unfold orbisJitMaxSpans OrbisJitArena.nspans orbisJitFresh; norm_num
  dedicated_spans := by simp [orbisJitFresh]

/-- The arena that `orbis_jit_grow` has added: to be suballocated, as long as it was decided, and
where it was decided. -/
structure Grown (anchor : ℕ) (pf : Platform) (atleast flags : ℕ) (a : OrbisJitArena) : Prop where
  shared : a.dedicated = false
  sized : a.size = orbisJitArenaSize pf.arenaMb atleast
  placed : ∃ at', orbisJitPlace anchor pf a.size flags = some (some at') ∧
    (at' = 0 ∨ a.base = at')

/-- **`orbis_jit_grow`** adds one arena that is free from end to end, or none. -/
theorem orbisJitGrow_spec {anchor atleast flags : ℕ} {pf : Platform} {s s' : State} {grown : Bool}
    (L : s.Ok live dropped) (hpf : pf.Documented s.arenas) (hlen : atleast < 2 ^ 64)
    (h : orbisJitGrow anchor pf s atleast flags = some (s', grown)) :
    s'.Ok live dropped ∧ (grown = true → 0 < s'.sArenas ∧
      Grown anchor pf atleast flags (s'.sArena.slot (s'.sArenas - 1))) := by
  obtain ⟨hdvd, hlt, -⟩ := orbisJitArenaSize_spec pf.arenaMb hlen
  rcases orbisJitGrow_cases h with ⟨rfl, rfl⟩ | ⟨hroom, at', s₁, r, hplace, hmap, hres⟩
  · exact ⟨L, by simp⟩
  obtain ⟨hsame, L₁, hsome⟩ := orbisJitMap_spec L hpf
    (fun _ _ hg => hg.apart_place hpf L.inGranules hdvd hlt hplace) hmap
  rcases hres with ⟨rfl, -, rfl⟩ | ⟨rfl, base, size, phys, hr, rfl⟩
  · exact ⟨L₁, by simp⟩
  obtain ⟨rfl, hg, hap⟩ := hsome base size phys hr
  obtain ⟨hpos, hbase, hbd, hu⟩ := hg.spec hpf
  have has : s₁.arenas = s.arenas := by unfold State.arenas; rw [hsame]
  refine ⟨?_, fun _ => ⟨Nat.succ_pos _, ?_⟩⟩
  · show Ledger (CTable.toList _) s₁.mem live dropped
    rw [State.sArenas, CTable.toList_push]
    refine L₁.push [] ?_ (goodArena_fresh hbase hpos hbd hdvd hu) ?_ (by simp) ?_
    · rw [State.arenas, CTable.length_toList, hsame]
      exact hroom
    · rw [has]; exact hap
    · intro x hx
      show cover [⟨base, _⟩] x + 0 = 1
      have hx' : x ∈ (⟨base, orbisJitArenaSize pf.arenaMb atleast⟩ : Extent) := hx
      simp [cover_cons, hx']
  · show Grown anchor pf atleast flags ((s₁.sArena.set s₁.sArenas _).slot (s₁.sArenas + 1 - 1))
    rw [Nat.add_sub_cancel, CTable.set_slot_self]
    exact ⟨rfl, rfl, at', hplace, hg.placed⟩

/-! ### Taking a block -/

theorem GoodArena.fits {a : OrbisJitArena} (h : GoodArena a) : Fits a := by
  intro s hs
  have h1 := (h.freeList.within s hs).2
  have h2 := h.user
  rw [OrbisJitArena.extent_stop] at h1
  unfold userEnd at h2
  omega

/-- What is left of an arena once the front of a free span is cut off. -/
theorem goodArena_take {a a' : OrbisJitArena} {pre post : List Extent} {e : Extent} {n : ℕ}
    (hg : GoodArena a) (hded : a.dedicated = false) (hspans : a.spans = pre ++ e :: post)
    (hle : n ≤ e.len) (hn : 64 ∣ n) (hspans' : a'.spans = pre ++ dropFront e n ++ post)
    (hfields : a' = { a with span := a'.span }) : GoodArena a' := by
  have hFL := hg.freeList
  rw [hspans] at hFL
  have hae : a'.extent = a.extent := by rw [hfields]; rfl
  have had : a'.dedicated = a.dedicated := by rw [hfields]
  constructor
  · rw [hfields]; exact hg.base_pos
  · rw [hfields]; exact hg.size_pos
  · rw [hfields]; exact hg.base_dvd
  · rw [hfields]; exact hg.size_dvd
  · rw [hfields]; exact hg.user
  · rw [hae, hspans']
    exact hFL.take hle (by unfold orbisJitAlign; exact hn)
  · -- cutting the front off never makes two spans of one
    have hfew := hg.few
    have hone : (dropFront e n).length ≤ 1 := by
      unfold dropFront; split_ifs <;> simp
    rw [← OrbisJitArena.length_spans] at hfew ⊢
    rw [hspans] at hfew
    rw [hspans']
    simp only [List.length_append, List.length_cons] at hfew ⊢
    omega
  · rw [had, hded]; simp

/-- `takeAt` cuts the front off one span of the arena at the index. -/
theorem takeAt_cases {s s' : State} {i len p : ℕ} (hg : GoodArena (s.sArena.slot i))
    (h : s.takeAt i len = some (s', p)) :
    ∃ a' pre e post, s' = { s with sArena := s.sArena.set i a' } ∧
      (s.sArena.slot i).spans = pre ++ e :: post ∧ len ≤ e.len ∧ p = e.start ∧
      a'.spans = pre ++ dropFront e len ++ post ∧
      a' = { s.sArena.slot i with span := a'.span } := by
  obtain ⟨⟨a', p'⟩, htake, hres⟩ := Option.map_eq_some_iff.mp h
  obtain ⟨rfl, rfl⟩ := Prod.mk.inj hres
  obtain ⟨pre, e, post, hspans, hle, hp, hspans', hfields⟩ := orbisJitTake_eq_some hg.fits htake
  exact ⟨a', pre, e, post, rfl, hspans, hle, hp, hspans', hfields⟩

/-- What `takeAt` hands out lies inside the arena. -/
theorem takeAt_within {s s' : State} {i len p : ℕ} (hg : GoodArena (s.sArena.slot i))
    (h : s.takeAt i len = some (s', p)) :
    Within ⟨p, len⟩ (s.sArena.slot i).extent ∧ 64 ∣ p := by
  obtain ⟨a', pre, e, post, -, hspans, hle, rfl, -, -⟩ := takeAt_cases hg h
  have hmem : e ∈ (s.sArena.slot i).spans := by rw [hspans]; simp
  obtain ⟨hw1, hw2⟩ := hg.freeList.within e hmem
  refine ⟨⟨hw1, ?_⟩, (hg.freeList.aligned e hmem).1⟩
  unfold stop at hw2 ⊢
  dsimp only
  omega

/-- The header of a live block is in no free span. -/
theorem Ledger.header_not_free {as : List OrbisJitArena} {mem : FlatMem}
    (L : Ledger as mem live dropped) {a c : OrbisJitArena} {e : Extent} {h : Handout} (ha : a ∈ as)
    (he : e ∈ a.spans) (hh : h ∈ live) (hp : Placed mem h c) (hd : h.dedicated = false) {x : ℕ}
    (hx : h.ptr - 64 ≤ x) (hx' : x < h.ptr) : x ∉ e := by
  intro hxe
  have hxa : x ∈ a.extent := ((L.good a ha).freeList.within e he).mem hxe
  have hcov := L.covered a ha x hxa
  have hfree : 0 < cover a.spans x := cover_pos.mpr ⟨e, he, hxe⟩
  have hheld : 0 < cover (held live) x :=
    cover_pos.mpr ⟨_, List.mem_map_of_mem hh, hp.header_mem hd hx hx'⟩
  omega

/-- **Taking**: the block leaves the free list and joins the live ones, with its length in the
header. -/
theorem takeAt_spec {s s' : State} {i size p : ℕ} (L : s.Ok live dropped) (hi : i < s.sArenas)
    (hded : (s.sArena.slot i).dedicated = false) (hsize : size ≤ orbisJitMaxSize)
    (h : s.takeAt i (orbisJitBlockLen size) = some (s', p)) :
    let r := orbisJitHeader s' p (orbisJitBlockLen size)
    0 < r.2 ∧ r.1.Ok (⟨r.2, size, false⟩ :: live) dropped := by
  obtain ⟨hl1, hl2, hl3, hl4⟩ := orbisJitBlockLen_spec hsize
  have hsplit : s.arenas
      = s.arenas.take i ++ s.sArena.slot i :: s.arenas.drop (i + 1) := CTable.toList_split _ hi
  have hmem : s.sArena.slot i ∈ s.arenas := by rw [hsplit]; simp
  have hg := L.good _ hmem
  obtain ⟨hwithin, hp64⟩ := takeAt_within hg h
  obtain ⟨a', pre, e, post, rfl, hspans, hle, rfl, hspans', hfields⟩ := takeAt_cases hg h
  set a := s.sArena.slot i with ha
  have he : e ∈ a.spans := by rw [hspans]; simp
  have hae : a'.extent = a.extent := by rw [hfields]; rfl
  have had : a'.dedicated = a.dedicated := by rw [hfields]
  have hptr : Word64.add e.start orbisJitAlign = e.start + 64 := by
    have hw := hwithin.2
    have huser := hg.user
    rw [OrbisJitArena.extent_stop, stop] at hw
    unfold userEnd at huser
    dsimp only at hw
    exact Word64.add_of_lt (by unfold orbisJitAlign; omega)
  intro r
  have hr2 : r.2 = e.start + 64 := hptr
  rw [hr2]
  refine ⟨by omega, ?_⟩
  -- the new block is the range that was cut off
  set b : Handout := ⟨e.start + 64, size, false⟩ with hb
  have hbe : b.extent = ⟨e.start, orbisJitBlockLen size⟩ := by
    rw [Handout.extent_block rfl]; simp [hb]
  have hload : (s.mem.store64 e.start (orbisJitBlockLen size)).load64 (b.ptr - 64)
      = orbisJitBlockLen size := by
    rw [show b.ptr - 64 = e.start from Nat.add_sub_cancel _ _, FlatMem.load64_store64,
      Nat.mod_eq_of_lt hl4]
  have hplaced : Placed (s.mem.store64 e.start (orbisJitBlockLen size)) b a' := by
    refine ⟨?_, ?_, ?_, by simp [hb], fun _ => ⟨?_, ?_, hsize, hload⟩⟩
    · rw [had, hded]
    · rw [hae, hbe]; exact hwithin
    · rw [hbe]; dsimp only; omega
    · show 64 ∣ e.start + 64; omega
    · show 64 ≤ e.start + 64; omega
  show Ledger (s.sArena.set i a').toList (s.mem.store64 e.start _) (b :: live) dropped
  rw [CTable.toList_set_split _ _ hi]
  refine Ledger.modify (a := a) (by rw [← State.arenas, ← hsplit]; exact L)
    (goodArena_take hg hded hspans hle hl3 hspans' hfields) hae (fun x => ?_) (fun h hh => ?_)
    (fun e' he' => ?_)
  · have h1 := cover_dropFront hle x
    rw [hspans', hspans, held_cons, cover_cons b.extent, hbe]
    simp only [cover_append, cover_cons, cover_nil, Nat.zero_add] at h1 ⊢
    omega
  · rcases List.mem_cons.mp hh with rfl | hh
    · exact ⟨a', by simp, hplaced⟩
    · -- the new header is written into what was a free span
      obtain ⟨c, hc, hp⟩ := L.placed h hh
      have hp' : Placed (s.mem.store64 e.start (orbisJitBlockLen size)) h c := by
        refine hp.frame fun hd x hx hx' => FlatMem.store64_of_not_mem ?_
        have hxe := L.header_not_free hmem he hh hp hd hx hx'
        rw [mem_iff] at hxe
        omega
      rw [hsplit] at hc
      exact exists_mem_replace (fun hpa => hpa.congr had hae) ⟨c, hc, hp'⟩
  · have hlost := L.lost e' he'
    rw [hsplit] at hlost
    exact exists_mem_replace (fun hpa => by rwa [had, hae]) hlost

end OrbisCompat.Jit
