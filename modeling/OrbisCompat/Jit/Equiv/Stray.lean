import OrbisCompat.Jit.Equiv.Standing

/-!
# Freeing what was never handed out

`orbis_jit_free` is meant to be quiet about an address it never handed out.  All it has to go by is the
word in front of the address: in a suballocated arena that is whatever the owner of the block has put
there, and for an address in the first unit of the arena it is not in the arena at all.

`freeIgnored_iff` says for which states and addresses the call is quiet: `HeaderRefused`.  That what
passes the check always shows in the free list, even a list that no client has kept in order, is
`orbisJitGive_spans_ne`.
-/

namespace OrbisCompat.Jit

open Extent

/-- The memory that `orbis_jit_free` reads: the word in front of an address in a suballocated arena. -/
def orbisJitFreeReads (s : State) (addr : ℕ) : List Extent :=
  if addr = 0 then []
  else
    match orbisJitArenaOf s addr with
    | none => []
    | some i =>
      if (s.sArena.slot i).dedicated then [] else [⟨Word64.sub addr orbisJitAlign, 8⟩]

/-- No other memory makes a difference to `orbis_jit_free`. -/
theorem orbisJitFree_reads {s : State} {addr : ℕ} {mem : FlatMem}
    (h : ∀ e ∈ orbisJitFreeReads s addr, ∀ x ∈ e, mem x = s.mem x) :
    orbisJitFree { s with mem := mem } addr = { orbisJitFree s addr with mem := mem } := by
  have hof : orbisJitArenaOf { s with mem := mem } addr = orbisJitArenaOf s addr := rfl
  unfold orbisJitFree
  unfold orbisJitFreeReads at h
  by_cases h0 : addr = 0
  · rw [if_pos h0, if_pos h0]
  rw [if_neg h0] at h ⊢
  rw [if_neg h0, hof]
  cases hi : orbisJitArenaOf s addr with
  | none => rfl
  | some i =>
    rw [hi] at h
    dsimp only at h ⊢
    by_cases hd : (s.sArena.slot i).dedicated
    · rw [if_pos hd, if_pos hd]
      split_ifs <;> rfl
    · rw [if_neg hd] at h ⊢
      have hload : mem.load64 (Word64.sub addr orbisJitAlign)
          = s.mem.load64 (Word64.sub addr orbisJitAlign) :=
        FlatMem.load64_congr fun x hx hx' =>
          h _ (List.mem_singleton_self _) x (mem_iff.mpr ⟨hx, hx'⟩)
      rw [if_neg hd, hload]
      split_ifs <;> rfl

/-- `orbis_jit_free` of this address leaves the table as it was, and reads no memory outside the
arenas. -/
structure FreeIgnored (s : State) (addr : ℕ) : Prop where
  count : (orbisJitFree s addr).sArenas = s.sArenas
  sites : (orbisJitFree s addr).sites = s.sites
  spans : (orbisJitFree s addr).arenas.map OrbisJitArena.spans = s.arenas.map OrbisJitArena.spans
  reads : ∀ e ∈ orbisJitFreeReads s addr, ∀ x ∈ e, ∃ a ∈ s.arenas, x ∈ a.extent

/-- The word in front of an address in the suballocated arena `a` stops `orbis_jit_free`: it is arena
memory, and it is no length that could have been written there, or the list has no room. -/
structure HeaderRefused (s : State) (a : OrbisJitArena) (addr : ℕ) : Prop where
  inside : a.base + orbisJitAlign ≤ addr ∨ ∃ b ∈ s.arenas, b.base + b.size = a.base
  refused : orbisJitHeaderOk a (addr - orbisJitAlign) (s.mem.load64 (addr - orbisJitAlign)) = false ∨
    orbisJitMaxSpans ≤ a.nspans

/-! ### Addresses in a suballocated arena -/

section Shared

variable {s : State} {a : OrbisJitArena} {addr : ℕ} {k : Holdings} {returned : List ℕ}

/-- The word in front of an address in an arena is memory of this file unless it is in front of the
arena, and no other arena ends there. -/
theorem reads_inside_iff (S : Standing s.sites k returned) (ha : a ∈ s.arenas)
    (haddr : addr ∈ a.extent) :
    (∀ x ∈ (⟨addr - orbisJitAlign, 8⟩ : Extent), ∃ b ∈ s.arenas, x ∈ b.extent) ↔
      a.base + orbisJitAlign ≤ addr ∨ ∃ b ∈ s.arenas, b.base + b.size = a.base := by
  obtain ⟨h1, h2⟩ := haddr
  rw [OrbisJitArena.extent_start] at h1
  rw [OrbisJitArena.extent_stop] at h2
  obtain ⟨hsize, hbd, hsd⟩ := S.inGranules a ha
  have hbase := (S.arenas_user a ha).1
  unfold orbisJitAlign
  constructor
  · intro h
    by_cases hin : a.base + 64 ≤ addr
    · exact Or.inl hin
    · -- the first byte read is in front of `a`, so the arena it is in ends where `a` starts
      obtain ⟨b, hb, hx1, hx2⟩ := h (addr - 64) (mem_iff.mpr (by dsimp only; omega))
      rw [OrbisJitArena.extent_start] at hx1
      rw [OrbisJitArena.extent_stop] at hx2
      obtain ⟨-, hbd', hsd'⟩ := S.inGranules b hb
      have hne : b ≠ a := by
        rintro rfl
        omega
      have : Std.Symm fun a b : OrbisJitArena => Apart a.extent b.extent := ⟨fun _ _ h => h.symm⟩
      have hap := S.arenas_apart.forall hb ha hne
      unfold Apart at hap
      simp only [OrbisJitArena.extent_start, OrbisJitArena.extent_stop] at hap
      exact Or.inr ⟨b, hb, by omega⟩
  · intro h x hx
    rw [mem_iff] at hx
    dsimp only at hx
    by_cases hxa : a.base ≤ x
    · exact ⟨a, ha, hxa, by rw [OrbisJitArena.extent_stop]; omega⟩
    · rcases h with h | ⟨b, hb, hend⟩
      · omega
      · obtain ⟨hsize', hbd', hsd'⟩ := S.inGranules b hb
        exact ⟨b, hb, by rw [OrbisJitArena.extent_start]; omega,
          by rw [OrbisJitArena.extent_stop]; omega⟩

/-- The call is quiet about an address in a suballocated arena if and only if the header is refused. -/
theorem freeIgnored_shared_iff {i : ℕ} (S : Standing s.sites s.kernel returned)
    (hi : i < s.sArenas) (hof : orbisJitArenaOf s addr = some i)
    (hd : (s.sArena.slot i).dedicated = false) (haddr : addr ∈ (s.sArena.slot i).extent) :
    FreeIgnored s addr ↔ HeaderRefused s (s.sArena.slot i) addr := by
  set a := s.sArena.slot i with ha
  have hmem : a ∈ s.arenas := CTable.mem_toList.mpr ⟨i, hi, rfl⟩
  have hbase : 16384 ≤ a.base := by
    obtain ⟨-, hbd, -⟩ := S.inGranules a hmem
    exact Nat.le_of_dvd (S.arenas_user a hmem).1 hbd
  have huser := (S.arenas_user a hmem).2
  have hlo := haddr.1
  have hhi := haddr.2
  rw [OrbisJitArena.extent_start] at hlo
  rw [OrbisJitArena.extent_stop] at hhi
  unfold userEnd at huser
  have hblk : Word64.sub addr orbisJitAlign = addr - orbisJitAlign :=
    Word64.sub_of_le (by unfold orbisJitAlign; omega) (by omega)
  have hfree := (orbisJitFree_eq (s := s) (show 0 < addr by omega) hof).1
  have hreads : orbisJitFreeReads s addr = [⟨addr - orbisJitAlign, 8⟩] := by
    unfold orbisJitFreeReads
    rw [if_neg (by omega), hof]
    dsimp only
    rw [← ha, hd, if_neg (by simp), hblk]
  rw [hblk, ← ha, hd, if_neg (by simp)] at hfree
  constructor
  · intro h
    refine ⟨(reads_inside_iff S hmem haddr).mp (h.reads _ (by rw [hreads]; simp)), ?_⟩
    by_contra hcon
    push Not at hcon
    obtain ⟨hok, hroom⟩ := hcon
    rw [Bool.ne_false_iff] at hok
    -- the length that was read is at least two units, so the list cannot stay the same
    have hlen : 0 < s.mem.load64 (addr - orbisJitAlign) := by
      unfold orbisJitHeaderOk orbisJitAlign at hok
      simp only [Bool.not_eq_true', Bool.or_eq_false_iff, decide_eq_false_iff_not] at hok
      unfold orbisJitAlign
      omega
    have hspans := h.spans
    rw [hfree, if_pos hok] at hspans
    have hith := congrArg (fun l => l[i]?) hspans
    have hne := orbisJitGive_spans_ne (p := addr - orbisJitAlign) hroom hlen (FlatMem.load64_lt _ _)
    have hn : i < s.sArena.n := hi
    refine hne ?_
    simpa [State.arenas, hn, ha] using hith
  · rintro ⟨hin, hrefused⟩
    have hsame : orbisJitFree s addr = s := by
      rw [hfree]
      split_ifs with hok
      · rcases hrefused with hbad | hfull
        · rw [hbad] at hok
          cases hok
        · rw [orbisJitGive_full hfull, ha, CTable.set_slot_eq]
      · rfl
    refine ⟨by rw [hsame], by rw [hsame], by rw [hsame], fun e he x hx => ?_⟩
    rw [hreads, List.mem_singleton] at he
    subst he
    exact (reads_inside_iff S hmem haddr).mpr hin x hx

end Shared

/-! ### All addresses -/

/-- **What `orbis_jit_free` is quiet about.**  In every reachable state, a call with an address that was
never returned leaves every arena, every free span and the number of arenas as they were, and reads
arena memory only, if and only if the address is outside the suballocated arenas or the header in
front of it is refused. -/
theorem LooseReaches.freeIgnored_iff {anchor : ℕ} {mem : FlatMem} {cs : List Call} {w : LooseWorld}
    (h : LooseReaches anchor mem cs w) {addr : ℕ} (hnew : addr ∉ w.returned) :
    FreeIgnored w.st addr ↔ ∀ a ∈ w.st.arenas, a.dedicated = false → addr ∈ a.extent →
      HeaderRefused w.st a addr := by
  have S : Standing w.st.sites w.st.kernel w.returned := h.ok
  have huser := fun a ha => (S.arenas_user a ha).2
  have hap := S.arenas_apart
  have hquiet : orbisJitFree w.st addr = w.st → orbisJitFreeReads w.st addr = [] →
      FreeIgnored w.st addr := fun hsame hreads =>
    ⟨by rw [hsame], by rw [hsame], by rw [hsame], by rw [hreads]; simp⟩
  cases hof : orbisJitArenaOf w.st addr with
  | none =>
    -- the address is in no arena
    have hout : ∀ a ∈ w.st.arenas, addr ∉ a.extent := fun a ha haddr => by
      obtain ⟨i, -, hi, -⟩ := orbisJitArenaOf_of_mem huser hap ha haddr
      rw [hof] at hi
      cases hi
    refine iff_of_true (hquiet ?_ ?_) fun a ha _ haddr => absurd haddr (hout a ha)
    · unfold orbisJitFree
      rw [hof]
      exact ite_self _
    · unfold orbisJitFreeReads
      rw [hof]
      exact ite_self _
  | some i =>
    obtain ⟨hi, haddr⟩ := mem_of_orbisJitArenaOf huser hof
    have hmem : w.st.sArena.slot i ∈ w.st.arenas := CTable.mem_toList.mpr ⟨i, hi, rfl⟩
    have honly : ∀ a ∈ w.st.arenas, addr ∈ a.extent → a = w.st.sArena.slot i := fun a ha haddr' =>
      eq_of_mem_of_apart hap ha hmem haddr' haddr
    cases hd : (w.st.sArena.slot i).dedicated with
    | true =>
      -- the base of a dedicated arena has been returned
      have hbase : addr ≠ (w.st.sArena.slot i).base := fun heq =>
        hnew (heq ▸ S.owned _ (List.mem_map_of_mem hmem) hd)
      refine iff_of_true (hquiet ?_ ?_) fun a ha hshared haddr' => ?_
      · unfold orbisJitFree
        rw [hof]
        dsimp only
        rw [hd, if_pos rfl, if_pos hbase, ite_self]
      · unfold orbisJitFreeReads
        rw [hof]
        dsimp only
        rw [hd, if_pos rfl, ite_self]
      · rw [honly a ha haddr', hd] at hshared
        cases hshared
    | false =>
      rw [freeIgnored_shared_iff S hi hof hd haddr]
      constructor
      · intro hr a ha _ haddr'
        rw [honly a ha haddr']
        exact hr
      · intro hr
        exact hr _ hmem hd haddr

/-- A first block of 1000 bytes on an idle console, and a change of memory. -/
theorem looseReaches_write (change : FlatMem → FlatMem) : ∃ s,
    LooseReaches 0 (fun _ => 0) [.alloc 1000 0, .write]
      ⟨{ s with mem := change s.mem }, [0x200000040]⟩ ∧
    orbisJitAlloc 0 .idle (State.init fun _ => 0) 1000 0 = some (s, 0x200000040) := by
  have hptr : (orbisJitAlloc 0 .idle (State.init fun _ => 0) 1000 0).map Prod.snd
      = some 0x200000040 := by decide
  obtain ⟨⟨s, q⟩, hs, hq⟩ := Option.map_eq_some_iff.mp hptr
  obtain rfl : q = 0x200000040 := hq
  have hfresh : Platform.idle.FreshDirect {} := fun _ _ _ e he => by cases he
  have hstep : LooseStep 0 (LooseWorld.init fun _ => 0) (.alloc 1000 0) ⟨s, [0x200000040]⟩ :=
    .alloc (w := LooseWorld.init fun _ => 0) .idle Platform.idle_documented hfresh (by norm_num) hs
  exact ⟨s, .cons hstep (.cons (.write _) (.nil _)), hs⟩

/-- While the block is zero, freeing its second unit is ignored. -/
theorem freeIgnored_zero : ∃ w, LooseReaches 0 (fun _ => 0) [.alloc 1000 0, .write] w ∧
    FreeIgnored w.st 0x200000080 := by
  obtain ⟨s, hrun, hs⟩ := looseReaches_write id
  refine ⟨_, hrun, hrun.freeIgnored_iff (by simp) |>.mpr fun a ha _ _ => ?_⟩
  have hall : ∀ r ∈ orbisJitAlloc 0 .idle (State.init fun _ => 0) 1000 0, ∀ a ∈ r.1.arenas,
      a.base + orbisJitAlign ≤ 0x200000080 ∧
        orbisJitHeaderOk a 0x200000040 (r.1.mem.load64 0x200000040) = false := by decide
  obtain ⟨hin, hbad⟩ := hall _ hs a ha
  exact ⟨Or.inl hin, Or.inl hbad⟩

/-- The owner of the block writes the number 128 to its first word.  Freeing the second unit then puts
the first two units of a block that is in use on the free list. -/
theorem not_freeIgnored_written : ∃ s : State,
    Reaches 0 (Call.SizeAtMost (2 ^ 63)) (fun _ => 0) [.alloc 1000 0, .write]
      ⟨s, [⟨0x200000040, 1000, false⟩], []⟩ ∧
    LooseReaches 0 (fun _ => 0) [.alloc 1000 0, .write] ⟨s, [0x200000040]⟩ ∧
    ¬ FreeIgnored s 0x200000080 := by
  obtain ⟨s, hrun, hs⟩ := looseReaches_write fun mem => mem.store64 0x200000040 128
  have hstep : Step 0 (World.init fun _ => 0) (.alloc 1000 0)
      ⟨s, [⟨0x200000040, 1000, false⟩], []⟩ :=
    .alloc (w := World.init fun _ => 0) .idle Platform.idle_documented (by norm_num) hs
  have hwrite : Step 0 ⟨s, [⟨0x200000040, 1000, false⟩], []⟩ .write _ :=
    .write (s.mem.store64 0x200000040 128) fun b hb _ x hx hx' => by
      obtain rfl := List.mem_singleton.mp hb
      exact FlatMem.store64_of_not_mem (Or.inl hx')
  refine ⟨_, .cons ⟨show 1000 ≤ 2 ^ 63 by norm_num, hstep⟩ (.cons ⟨trivial, hwrite⟩ (.nil _)),
    hrun, fun h => ?_⟩
  have hall : ∀ r ∈ orbisJitAlloc 0 .idle (State.init fun _ => 0) 1000 0,
      (orbisJitFree { r.1 with mem := r.1.mem.store64 0x200000040 128 } 0x200000080).arenas.map
        OrbisJitArena.spans ≠ r.1.arenas.map OrbisJitArena.spans := by decide
  exact hall _ hs h.spans

end OrbisCompat.Jit
