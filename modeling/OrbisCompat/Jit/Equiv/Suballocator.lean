import OrbisCompat.Jit.Equiv.Calls

/-!
# The suballocator over whole runs

The free lists partition their arenas in every reachable world (`Reaches.partition`), and a block
that `orbis_jit_alloc` returns is a safe one exactly when the size is at most `orbisJitMaxSize`
(`Reaches.safeBlock_iff`): above it the length the code works with wraps to at most one unit, and
the block that is handed out has no room for its size.
-/

namespace OrbisCompat.Jit

open Extent

/-- A console that has nothing mapped and grants one request: at a fixed address, up to 1 TiB. -/
def Platform.idle : Platform where
  arenaMb := none
  virtualQuery := fun _ _ => none
  allocateDirectMemory := fun len => if len = 0 then none else some 0
  mapNamedDirectMemory := fun at' len =>
    if at' = 0 ∧ len ≤ 0x10000000000 then some 0x200000000 else none
  mprotect := fun _ _ => true
  callStub := fun _ => 0x00c0ffee

theorem Platform.idle_documented : Platform.idle.Documented [] where
  query_mapped := by simp
  query_end := by simp [idle]
  allocate_zero := rfl
  map_user := by
    intro at' len got h
    unfold idle at h
    dsimp only at h
    split_ifs at h with hc
    obtain rfl := Option.some.inj h
    unfold orbisJitGranule userEnd
    omega
  map_fresh := by simp

/-! ### The free lists -/

/-- **The representation invariant of the free lists.**  In every reachable world, every arena that
is not dedicated has a short, sorted, coalesced free list of unit-aligned spans, and every byte of
it is in exactly one free span, live block or dropped block. -/
theorem Reaches.partition {anchor : ℕ} {mem : FlatMem} {cs : List Call} {w : World}
    (h : Reaches anchor (Call.SizeAtMost (2 ^ 63)) mem cs w) :
    (∀ a ∈ w.st.arenas, a.dedicated = false →
      a.nspans ≤ 256 ∧ (a.spans.Pairwise fun s t => s.stop < t.start) ∧
      (∀ s ∈ a.spans, 0 < s.len ∧ Within s ⟨a.base, a.size⟩ ∧
        64 ∣ s.start - a.base ∧ 64 ∣ s.len) ∧
      ∀ x ∈ (⟨a.base, a.size⟩ : Extent),
        cover a.spans x + cover (w.live.map Handout.extent) x + cover w.dropped x = 1) ∧
    (∀ b ∈ w.live, ∃ a ∈ w.st.arenas, b.dedicated = a.dedicated ∧
      Within b.extent ⟨a.base, a.size⟩) ∧
    ∀ e ∈ w.dropped, ∃ a ∈ w.st.arenas, a.dedicated = false ∧ Within e ⟨a.base, a.size⟩ := by
  have hmono : Reaches anchor (Call.AllocAtMost orbisJitMaxSize) mem cs w := by
    refine Lts.Run.mono (fun w c w' hs => ⟨?_, hs.2⟩) h
    cases c with
    | alloc size flags =>
      have hsize : size ≤ 2 ^ 63 := hs.1
      show size ≤ orbisJitMaxSize
      unfold orbisJitMaxSize
      omega
    | _ => trivial
  have L : w.Ok := hmono.ok
  refine ⟨fun a ha _ => ?_, fun b hb => ?_, L.lost⟩
  · have hg := L.good a ha
    refine ⟨hg.few, hg.freeList.separated, fun s hs => ?_, L.covered a ha⟩
    obtain ⟨hstart, hlen⟩ := hg.freeList.aligned s hs
    have hbase : orbisJitAlign ∣ a.base :=
      Nat.dvd_trans (by unfold orbisJitAlign; norm_num) hg.base_dvd
    exact ⟨hg.freeList.pos s hs, hg.freeList.within s hs, Nat.dvd_sub hstart hbase, hlen⟩
  · obtain ⟨a, ha, hp⟩ := L.placed b hb
    exact ⟨a, ha, hp.kind, hp.within⟩

/-- On an idle console a 100-byte block is allocated from a fresh arena and given back, and the
invariant holds afterwards. -/
theorem partition_after_free : ∃ w, Reaches 0 (Call.SizeAtMost (2 ^ 63)) (fun _ => 0)
      [.alloc 100 0, .free 0x200000040] w ∧
    ∀ a ∈ w.st.arenas, a.dedicated = false → ∀ x ∈ (⟨a.base, a.size⟩ : Extent),
      cover a.spans x + cover (w.live.map Handout.extent) x + cover w.dropped x = 1 := by
  have hptr : (orbisJitAlloc 0 .idle (State.init fun _ => 0) 100 0).map Prod.snd
      = some 0x200000040 := by decide
  obtain ⟨⟨s, p⟩, hs, hp⟩ := Option.map_eq_some_iff.mp hptr
  obtain rfl : p = 0x200000040 := hp
  set b : Handout := ⟨0x200000040, 100, false⟩ with hb
  have h1 : Step 0 (World.init fun _ => 0) (.alloc 100 0) ((World.init fun _ => 0).handOut s b) :=
    .alloc .idle Platform.idle_documented (by norm_num) hs
  have hlive : b ∈ ((World.init fun _ => 0).handOut s b).live := by simp [World.handOut, hb]
  have h2 : Step 0 ((World.init fun _ => 0).handOut s b) (.free b.ptr) _ := .free hlive
  have hrun : Reaches 0 (Call.SizeAtMost (2 ^ 63)) (fun _ => 0) [.alloc 100 0, .free 0x200000040]
      _ := .cons ⟨show 100 ≤ 2 ^ 63 by norm_num, h1⟩ (.cons ⟨trivial, h2⟩ (.nil _))
  exact ⟨_, hrun, fun a ha hd => (Reaches.partition hrun).1 a ha hd |>.2.2.2⟩

/-! ### Blocks that are safe to write to -/

/-- The block at `p` has room for `size` bytes inside one arena, and neither its payload nor its
header unit meets a live block. -/
def SafeBlock (s : State) (live : List Handout) (p size : ℕ) : Prop :=
  orbisJitAlign ∣ p ∧ (∃ a ∈ s.arenas, Within ⟨p, size⟩ a.extent) ∧
    ∀ h ∈ live, Apart ⟨p - orbisJitAlign, size + orbisJitAlign⟩ h.extent

theorem safeBlock_of_ledger {s : State} {live : List Handout} {dropped : List Extent} {p size : ℕ}
    (L : s.Ok (⟨p, size, false⟩ :: live) dropped) : SafeBlock s live p size := by
  obtain ⟨a, ha, hp⟩ := L.placed _ List.mem_cons_self
  obtain ⟨h64, hle, hsize, -⟩ := hp.block rfl
  have hlen := (orbisJitBlockLen_spec hsize).1
  have hext : (⟨p, size, false⟩ : Handout).extent = ⟨p - 64, orbisJitBlockLen size⟩ :=
    Handout.extent_block rfl
  have hwithin := hp.within
  rw [hext] at hwithin
  refine ⟨h64, ⟨a, ha, ?_⟩, fun h hh => ?_⟩
  · unfold Within stop at hwithin ⊢
    dsimp only at hwithin hle hlen ⊢
    omega
  · have hap : Apart (⟨p, size, false⟩ : Handout).extent h.extent :=
      L.apart_of_mem_erase List.mem_cons_self (by rwa [List.erase_cons_head])
    rw [hext] at hap
    refine hap.mono ?_ ⟨le_rfl, le_rfl⟩
    unfold Within stop orbisJitAlign
    dsimp only at hle hlen ⊢
    omega

/-- Taking a block moves no arena. -/
theorem takeAt_extents {s s' : State} {i len p : ℕ} (hi : i < s.sArenas)
    (h : s.takeAt i len = some (s', p)) : ∀ a ∈ s'.arenas, ∃ b ∈ s.arenas, a.extent = b.extent := by
  obtain ⟨t, rfl⟩ := takeAt_fields h
  intro a ha
  have ha' : a ∈ (s.sArena.set i { s.sArena.slot i with span := t }).toList := ha
  rw [CTable.toList_set] at ha'
  rcases List.mem_or_eq_of_mem_set ha' with ha' | rfl
  · exact ⟨a, ha', rfl⟩
  · exact ⟨_, CTable.mem_toList.mpr ⟨i, hi, rfl⟩, rfl⟩

/-- Whatever the size, `orbis_jit_alloc` leaves the arenas in the user half. -/
theorem orbisJitAlloc_user {anchor size flags p : ℕ} {pf : Platform} {s s' : State}
    {live : List Handout} {dropped : List Extent} (L : s.Ok live dropped)
    (hpf : pf.Documented s.arenas) (h : orbisJitAlloc anchor pf s size flags = some (s', p)) :
    ∀ a ∈ s'.arenas, a.extent.stop ≤ userEnd := by
  intro a ha
  rcases orbisJitAlloc_cases L hpf h with ⟨-, L'⟩ | ⟨t, i, ⟨t', q⟩, Lt, hi, -, -, htake, hr⟩
  · exact (L'.good a ha).user
  · -- writing the header touches no arena
    obtain ⟨rfl, -⟩ := Prod.mk.inj hr
    obtain ⟨b, hb, hab⟩ := takeAt_extents hi htake a ha
    rw [hab]
    exact (Lt.good b hb).user

/-- **Which sizes are safe.**  In a world reached with sizes up to `orbisJitMaxSize`, a pointer that
`orbis_jit_alloc` returns is one of a safe block if and only if its size is in that range too. -/
theorem Reaches.safeBlock_iff {anchor : ℕ} {mem : FlatMem} {cs : List Call} {w : World}
    (h : Reaches anchor (Call.AllocAtMost orbisJitMaxSize) mem cs w) {pf : Platform}
    (hpf : pf.Documented w.st.arenas) {size flags p : ℕ} {s : State} (hsize : size < 2 ^ 64)
    (halloc : orbisJitAlloc anchor pf w.st size flags = some (s, p)) (hp : p ≠ 0) :
    SafeBlock s w.live p size ↔ size ≤ orbisJitMaxSize := by
  constructor
  · rintro ⟨-, ⟨a, ha, -, hstop⟩, -⟩
    -- no arena is anywhere near that long
    have hu := orbisJitAlloc_user h.ok hpf halloc a ha
    unfold userEnd at hu
    unfold stop at hstop
    unfold orbisJitMaxSize
    dsimp only at hstop
    unfold stop at hu
    omega
  · intro hmax
    have L := orbisJitAlloc_spec h.ok hpf hmax halloc
    rw [if_neg hp] at L
    exact safeBlock_of_ledger L

/-- The first block of a fresh arena is safe. -/
theorem safeBlock_first : ∃ s, orbisJitAlloc 0 .idle (State.init fun _ => 0) 100 0
    = some (s, 0x200000040) ∧ SafeBlock s [] 0x200000040 100 := by
  have hptr : (orbisJitAlloc 0 .idle (State.init fun _ => 0) 100 0).map Prod.snd
      = some 0x200000040 := by decide
  obtain ⟨⟨s, p⟩, hs, hp⟩ := Option.map_eq_some_iff.mp hptr
  obtain rfl : p = 0x200000040 := hp
  exact ⟨s, hs, (Reaches.safeBlock_iff (w := World.init fun _ => 0) (.nil _)
    Platform.idle_documented (by norm_num) hs (by norm_num)).mpr (by decide)⟩

/-- A request for `SIZE_MAX` bytes before anything else: the length wraps to one unit, and the
pointer that comes back has no arena around its `SIZE_MAX` bytes. -/
theorem not_safeBlock_sizeMax : ∃ s, Platform.idle.Documented (State.init fun _ => 0).arenas ∧
    orbisJitAlloc 0 .idle (State.init fun _ => 0) (2 ^ 64 - 1) 0 = some (s, 0x200000040) ∧
    ¬ SafeBlock s [] 0x200000040 (2 ^ 64 - 1) := by
  have hptr : (orbisJitAlloc 0 .idle (State.init fun _ => 0) (2 ^ 64 - 1) 0).map Prod.snd
      = some 0x200000040 := by decide
  have hbound : ∀ r ∈ orbisJitAlloc 0 .idle (State.init fun _ => 0) (2 ^ 64 - 1) 0,
      r.1.arenas.map OrbisJitArena.extent = [⟨0x200000000, 0x1000000⟩] := by decide
  obtain ⟨⟨s, p⟩, hs, hp⟩ := Option.map_eq_some_iff.mp hptr
  obtain rfl : p = 0x200000040 := hp
  refine ⟨s, Platform.idle_documented, hs, ?_⟩
  rintro ⟨-, ⟨a, ha, hw⟩, -⟩
  have hext := List.mem_map_of_mem (f := OrbisJitArena.extent) ha
  rw [hbound _ hs, List.mem_singleton] at hext
  rw [hext] at hw
  exact absurd hw (by decide)

end OrbisCompat.Jit
