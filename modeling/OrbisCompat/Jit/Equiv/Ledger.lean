import OrbisCompat.Jit.Equiv.Lengths
import OrbisCompat.Jit.System

/-!
# The ledger of the arenas

`Ledger as mem live dropped` is the invariant of the suballocator: the arenas are disjoint and well
formed, every free list is a free list in the sense of `Extent.FreeList`, every address of an arena
is in exactly one free span, live block or dropped block, and every live pointer is where its
header says it is.

The calls change the ledger in four ways, one lemma each: an arena is added (`Ledger.push`), one
arena is rewritten in place (`Ledger.modify`), a dedicated arena is removed (`Ledger.remove`), and
memory outside the headers changes (`Ledger.frame`).
-/

namespace OrbisCompat.Jit

open Extent

/-- A table entry in use is well formed. -/
structure GoodArena (a : OrbisJitArena) : Prop where
  base_pos : 0 < a.base
  size_pos : 0 < a.size
  base_dvd : 16384 ∣ a.base
  size_dvd : 16384 ∣ a.size
  user : a.base + a.size ≤ userEnd
  freeList : FreeList a.extent orbisJitAlign a.spans
  few : a.nspans ≤ orbisJitMaxSpans
  dedicated_spans : a.dedicated = true → a.spans = []

/-- The live pointer `h` belongs to arena `a`: it is the whole of a dedicated arena, or a block of a
suballocated one with its length in the header. -/
structure Placed (mem : FlatMem) (h : Handout) (a : OrbisJitArena) : Prop where
  kind : h.dedicated = a.dedicated
  within : Within h.extent a.extent
  pos : 0 < h.extent.len
  whole : h.dedicated = true → h.extent = a.extent
  block : h.dedicated = false → 64 ∣ h.ptr ∧ 64 ≤ h.ptr ∧ h.size ≤ orbisJitMaxSize ∧
    mem.load64 (h.ptr - 64) = orbisJitBlockLen h.size

/-- The extents of the live pointers. -/
def held (live : List Handout) : List Extent := live.map Handout.extent

/-- **The invariant.** -/
structure Ledger (as : List OrbisJitArena) (mem : FlatMem) (live : List Handout)
    (dropped : List Extent) : Prop where
  count : as.length ≤ orbisJitMaxArenas
  good : ∀ a ∈ as, GoodArena a
  apart : as.Pairwise fun a b => Apart a.extent b.extent
  covered : ∀ a ∈ as, ∀ x ∈ a.extent,
    cover a.spans x + cover (held live) x + cover dropped x = 1
  placed : ∀ h ∈ live, ∃ a ∈ as, Placed mem h a
  lost : ∀ e ∈ dropped, ∃ a ∈ as, a.dedicated = false ∧ Within e a.extent

/-- The invariant of a world. -/
def World.Ok (w : World) : Prop := Ledger w.st.arenas w.st.mem w.live w.dropped

@[simp] theorem held_cons (h : Handout) (live : List Handout) :
    held (h :: live) = h.extent :: held live := rfl

theorem cover_held_erase {live : List Handout} {h : Handout} (hl : h ∈ live) (x : ℕ) :
    cover (held live) x = cover (held (live.erase h)) x + cover [h.extent] x := by
  have := cover_perm ((List.perm_cons_erase hl).map Handout.extent) x
  rw [held, this, List.map_cons, cover_cons, cover_cons, cover_nil, Nat.zero_add]
  rfl

theorem Placed.congr {mem : FlatMem} {h : Handout} {a b : OrbisJitArena} (hp : Placed mem h a)
    (hd : b.dedicated = a.dedicated) (he : b.extent = a.extent) : Placed mem h b :=
  ⟨hd ▸ hp.kind, he ▸ hp.within, hp.pos, he ▸ hp.whole, hp.block⟩

theorem Placed.frame {mem mem' : FlatMem} {h : Handout} {a : OrbisJitArena}
    (hp : Placed mem h a)
    (hm : h.dedicated = false → ∀ x, h.ptr - 64 ≤ x → x < h.ptr → mem' x = mem x) :
    Placed mem' h a := by
  refine ⟨hp.kind, hp.within, hp.pos, hp.whole, fun hd => ?_⟩
  obtain ⟨h1, h2, h3, h4⟩ := hp.block hd
  refine ⟨h1, h2, h3, ?_⟩
  rw [← h4]
  exact FlatMem.load64_congr fun x hx hx' => hm hd x hx (by omega)

theorem Handout.extent_block {h : Handout} (hd : h.dedicated = false) :
    h.extent = ⟨h.ptr - 64, orbisJitBlockLen h.size⟩ := by
  unfold Handout.extent orbisJitAlign
  rw [hd]; rfl

theorem Handout.extent_dedicated {h : Handout} (hd : h.dedicated = true) :
    h.extent = ⟨h.ptr, orbisJitMapLen h.size⟩ := by
  unfold Handout.extent
  rw [hd]; rfl

namespace GoodArena

theorem span_mem {a : OrbisJitArena} (h : GoodArena a) {x : ℕ} (hx : x ∉ a.extent) :
    cover a.spans x = 0 :=
  cover_eq_zero.mpr fun s hs hxs => hx ((h.freeList.within s hs).mem hxs)

theorem base_mem {a : OrbisJitArena} (h : GoodArena a) : a.base ∈ a.extent :=
  ⟨le_rfl, Nat.lt_add_of_pos_right h.size_pos⟩

end GoodArena

namespace Ledger

variable {as : List OrbisJitArena} {mem : FlatMem} {live : List Handout} {dropped : List Extent}

theorem empty : Ledger [] mem [] [] :=
  ⟨Nat.zero_le _, by simp, List.Pairwise.nil, by simp, by simp, by simp⟩

/-- Live and dropped blocks lie inside arenas. -/
theorem cover_outside (L : Ledger as mem live dropped) {x : ℕ} (hx : ∀ a ∈ as, x ∉ a.extent) :
    cover (held live) x = 0 ∧ cover dropped x = 0 := by
  constructor
  · refine cover_eq_zero.mpr fun e he hxe => ?_
    obtain ⟨h, hh, rfl⟩ := List.mem_map.mp he
    obtain ⟨a, ha, hp⟩ := L.placed h hh
    exact hx a ha (hp.within.mem hxe)
  · refine cover_eq_zero.mpr fun e he hxe => ?_
    obtain ⟨a, ha, -, hw⟩ := L.lost e he
    exact hx a ha (hw.mem hxe)

/-- No address is in two live blocks. -/
theorem cover_held_le (L : Ledger as mem live dropped) (x : ℕ) :
    (∃ a ∈ as, x ∈ a.extent ∧ cover a.spans x + cover (held live) x ≤ 1) ∨
      cover (held live) x = 0 := by
  by_cases hx : ∃ a ∈ as, x ∈ a.extent
  · obtain ⟨a, ha, hxa⟩ := hx
    have := L.covered a ha x hxa
    exact Or.inl ⟨a, ha, hxa, by omega⟩
  · push Not at hx
    exact Or.inr (L.cover_outside hx).1

/-- Distinct entries of the record do not overlap. -/
theorem apart_of_mem_erase (L : Ledger as mem live dropped) {h h' : Handout} (hl : h ∈ live)
    (hl' : h' ∈ live.erase h) : Apart h.extent h'.extent := by
  obtain ⟨a, -, hp⟩ := L.placed h hl
  obtain ⟨a', -, hp'⟩ := L.placed h' (List.mem_of_mem_erase hl')
  refine apart_of_cover_le_one (l := held (live.erase h)) hp.pos hp'.pos (fun x => ?_)
    (List.mem_map_of_mem hl')
  have := cover_held_erase hl x
  rcases L.cover_held_le x with ⟨b, -, -, hb⟩ | hb <;> omega

/-- **Adding an arena**, with the pointer that owns it when there is one. -/
theorem push (L : Ledger as mem live dropped) {a : OrbisJitArena} (extra : List Handout)
    (hroom : as.length < orbisJitMaxArenas) (ha : GoodArena a)
    (hapart : ∀ b ∈ as, Apart a.extent b.extent) (hextra : ∀ h ∈ extra, Placed mem h a)
    (hcov : ∀ x ∈ a.extent, cover a.spans x + cover (held extra) x = 1) :
    Ledger (as ++ [a]) mem (extra ++ live) dropped := by
  have hin : ∀ b, b ∈ as ++ [a] → b ∈ as ∨ b = a := fun b hb => by simpa using hb
  have hheld : ∀ x, cover (held (extra ++ live)) x = cover (held extra) x + cover (held live) x :=
    fun x => by simp [held]
  have hextra0 : ∀ x, x ∉ a.extent → cover (held extra) x = 0 := by
    refine fun x hx => cover_eq_zero.mpr fun e he hxe => ?_
    obtain ⟨h, hh, rfl⟩ := List.mem_map.mp he
    exact hx ((hextra h hh).within.mem hxe)
  refine ⟨?_, fun b hb => ?_, ?_, fun b hb x hx => ?_, fun h hh => ?_, fun e he => ?_⟩
  · rw [List.length_append]; exact hroom
  · rcases hin b hb with hb | rfl
    · exact L.good b hb
    · exact ha
  · refine List.pairwise_append.mpr ⟨L.apart, List.pairwise_singleton _ _, fun b hb c hc => ?_⟩
    obtain rfl := List.mem_singleton.mp hc
    exact (hapart b hb).symm
  · rcases hin b hb with hb | rfl
    · have hxa : x ∉ a.extent := (hapart b hb).symm.not_mem hx
      have := L.covered b hb x hx
      rw [hheld, hextra0 x hxa]
      omega
    · have hout := L.cover_outside fun b hb => (hapart b hb).not_mem hx
      have := hcov x hx
      rw [hheld]
      omega
  · rcases List.mem_append.mp hh with hh | hh
    · exact ⟨a, by simp, hextra h hh⟩
    · obtain ⟨b, hb, hp⟩ := L.placed h hh
      exact ⟨b, List.mem_append_left _ hb, hp⟩
  · obtain ⟨b, hb, hp⟩ := L.lost e he
    exact ⟨b, List.mem_append_left _ hb, hp⟩

/-- **Rewriting one arena in place.** The free list, the live blocks and the dropped blocks may
change as long as every address is counted as often as before. -/
theorem modify {l₁ l₂ : List OrbisJitArena} {a a' : OrbisJitArena} {mem' : FlatMem}
    {live' : List Handout} {dropped' : List Extent} (L : Ledger (l₁ ++ a :: l₂) mem live dropped)
    (hg : GoodArena a') (he : a'.extent = a.extent)
    (hcov : ∀ x, cover a'.spans x + cover (held live') x + cover dropped' x
      = cover a.spans x + cover (held live) x + cover dropped x)
    (hplaced : ∀ h ∈ live', ∃ b ∈ l₁ ++ a' :: l₂, Placed mem' h b)
    (hlost : ∀ e ∈ dropped', ∃ b ∈ l₁ ++ a' :: l₂, b.dedicated = false ∧ Within e b.extent) :
    Ledger (l₁ ++ a' :: l₂) mem' live' dropped' := by
  have hga : GoodArena a := L.good a (by simp)
  have hsplit := List.pairwise_append.mp L.apart
  have hmid := List.pairwise_cons.mp hsplit.2.1
  have hin : ∀ b, b ∈ l₁ ++ a' :: l₂ → b = a' ∨ b ∈ l₁ ∨ b ∈ l₂ := fun b hb => by
    simp only [List.mem_append, List.mem_cons] at hb; tauto
  -- the neighbours see no difference: outside `a` both free lists count nothing
  have hother : ∀ b, b ∈ l₁ ∨ b ∈ l₂ → ∀ x ∈ b.extent,
      cover (held live') x + cover dropped' x = cover (held live) x + cover dropped x := by
    intro b hb x hx
    have hap : Apart b.extent a.extent := by
      rcases hb with hb | hb
      · exact hsplit.2.2 b hb a List.mem_cons_self
      · exact (hmid.1 b hb).symm
    have h1 := hga.span_mem (hap.not_mem hx)
    have h2 := hg.span_mem (x := x) (by rw [he]; exact hap.not_mem hx)
    have := hcov x
    omega
  refine ⟨by simpa using L.count, fun b hb => ?_, ?_, fun b hb x hx => ?_, hplaced, hlost⟩
  · rcases hin b hb with rfl | hb
    · exact hg
    · exact L.good b (by simp only [List.mem_append, List.mem_cons]; tauto)
  · refine List.pairwise_append.mpr ⟨hsplit.1, List.pairwise_cons.mpr ⟨fun b hb => ?_, hmid.2⟩, ?_⟩
    · rw [he]; exact hmid.1 b hb
    · intro b hb c hc
      rcases List.mem_cons.mp hc with rfl | hc
      · rw [he]; exact hsplit.2.2 b hb a List.mem_cons_self
      · exact hsplit.2.2 b hb c (List.mem_cons_of_mem _ hc)
  · rcases hin b hb with rfl | hb
    · rw [he] at hx
      rw [hcov, L.covered a (by simp) x hx]
    · have := L.covered b (by simp only [List.mem_append, List.mem_cons]; tauto) x hx
      have := hother b hb x hx
      omega

/-- **Removing a dedicated arena** together with the pointer that owns it. -/
theorem remove {l₁ l₂ : List OrbisJitArena} {a : OrbisJitArena} {h : Handout}
    (L : Ledger (l₁ ++ a :: l₂) mem live dropped) (hl : h ∈ live) (hp : Placed mem h a)
    (hd : a.dedicated = true) : Ledger (l₁ ++ l₂) mem (live.erase h) dropped := by
  have hsplit := List.pairwise_append.mp L.apart
  have hmid := List.pairwise_cons.mp hsplit.2.1
  have hga : GoodArena a := L.good a (by simp)
  have hsub : ∀ b, b ∈ l₁ ++ l₂ → b ∈ l₁ ++ a :: l₂ ∧ Apart b.extent a.extent := by
    intro b hb
    rcases List.mem_append.mp hb with hb | hb
    · exact ⟨List.mem_append_left _ hb, hsplit.2.2 b hb a List.mem_cons_self⟩
    · exact ⟨List.mem_append_right _ (List.mem_cons_of_mem _ hb), (hmid.1 b hb).symm⟩
  have hin : ∀ b, b ∈ l₁ ++ a :: l₂ → b = a ∨ b ∈ l₁ ++ l₂ := fun b hb => by
    simp only [List.mem_append, List.mem_cons] at hb ⊢; tauto
  have hhe : h.extent = a.extent := hp.whole (by rw [hp.kind, hd])
  refine ⟨?_, fun b hb => L.good b (hsub b hb).1, ?_, fun b hb x hx => ?_, fun h' hh' => ?_,
    fun e he => ?_⟩
  · have := L.count
    simp only [List.length_append, List.length_cons] at this ⊢
    omega
  · refine List.pairwise_append.mpr ⟨hsplit.1, hmid.2, fun b hb c hc => ?_⟩
    exact hsplit.2.2 b hb c (List.mem_cons_of_mem _ hc)
  · have hx0 : cover [h.extent] x = 0 := by
      rw [hhe]; exact cover_eq_zero.mpr (by simpa using (hsub b hb).2.not_mem hx)
    have := L.covered b (hsub b hb).1 x hx
    have := cover_held_erase hl x
    omega
  · obtain ⟨b, hb, hp'⟩ := L.placed h' (List.mem_of_mem_erase hh')
    rcases hin b hb with rfl | hb
    · -- a second owner of the same arena would overlap the first
      have hap := L.apart_of_mem_erase hl hh'
      have hhe' : h'.extent = b.extent := hp'.whole (by rw [hp'.kind, hd])
      rw [hhe, hhe'] at hap
      exact absurd hga.base_mem (hap.not_mem hga.base_mem)
    · exact ⟨b, hb, hp'⟩
  · obtain ⟨b, hb, hbd, hw⟩ := L.lost e he
    rcases hin b hb with rfl | hb
    · rw [hd] at hbd; cases hbd
    · exact ⟨b, hb, hbd, hw⟩

/-- **Memory outside the header units may change.** -/
theorem frame {mem' : FlatMem} (L : Ledger as mem live dropped)
    (hm : ∀ h ∈ live, h.dedicated = false → ∀ x, h.ptr - 64 ≤ x → x < h.ptr → mem' x = mem x) :
    Ledger as mem' live dropped := by
  refine ⟨L.count, L.good, L.apart, L.covered, fun h hh => ?_, L.lost⟩
  obtain ⟨a, ha, hp⟩ := L.placed h hh
  exact ⟨a, ha, hp.frame (hm h hh)⟩

end Ledger

end OrbisCompat.Jit
