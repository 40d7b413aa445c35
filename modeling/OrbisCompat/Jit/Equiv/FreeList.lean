import OrbisCompat.Jit.FreeList

/-!
# Correctness of `orbisJitTake` and `orbisJitGive`

Both functions are brought to the list they leave in the table: `orbisJitTake` cuts a block off the
front of one member (`orbisJitTake_eq_some`), `orbisJitGive` puts a block between the two halves of
the list and joins what touches (`orbisJitGive_spans`).  The two halves of the coalescing are one
operation, an index apart (`orbisJitJoinPrev_eq`).
-/

namespace OrbisCompat.Jit

open Extent

/-- The spans of the arena do not reach the top of the address space. -/
def Fits (a : OrbisJitArena) : Prop := ∀ s ∈ a.spans, s.stop < 2 ^ 64

theorem orbisJitSpanEnd_eq {s : OrbisJitSpan} (h : s.stop < 2 ^ 64) : orbisJitSpanEnd s = s.stop :=
  Word64.add_of_lt h

/-! ### Taking -/

theorem orbisJitTake_eq_none {a : OrbisJitArena} {len : ℕ} :
    orbisJitTake a len = none ↔ ∀ s ∈ a.spans, s.len < len := by
  unfold orbisJitTake OrbisJitArena.spans
  rw [Option.map_eq_none_iff, CTable.firstIdx_eq_none]
  constructor
  · intro h s hs
    obtain ⟨i, hi, rfl⟩ := CTable.mem_toList.mp hs
    simpa using h i hi
  · intro h i hi
    simpa using h _ (CTable.mem_toList.mpr ⟨i, hi, rfl⟩)

/-- The search of `orbis_jit_take`: the index of the first span that is long enough. -/
def orbisJitFirstFit (a : OrbisJitArena) (len : ℕ) : Option ℕ :=
  a.span.firstIdx fun s => !decide (s.len < len)

/-- **`orbis_jit_take`** cuts the block off the span that its search finds. -/
theorem orbisJitTake_firstFit {a : OrbisJitArena} {len j : ℕ} (hfit : Fits a)
    (hj : orbisJitFirstFit a len = some j) :
    ∃ a', orbisJitTake a len = some (a', (a.span.slot j).start) ∧
      a.spans = a.spans.take j ++ a.span.slot j :: a.spans.drop (j + 1) ∧
      len ≤ (a.span.slot j).len ∧
      a'.spans = a.spans.take j ++ dropFront (a.span.slot j) len ++ a.spans.drop (j + 1) ∧
      a' = { a with span := a'.span } := by
  obtain ⟨hin, hlen, -⟩ := CTable.firstIdx_eq_some.mp hj
  have hlen' : len ≤ (a.span.slot j).len := by simpa using hlen
  have hstop : (a.span.slot j).stop < 2 ^ 64 := hfit _ (CTable.mem_toList.mpr ⟨j, hin, rfl⟩)
  have htake : orbisJitTake a len = _ := congrArg (Option.map _) hj
  dsimp only [Option.map_some] at htake
  by_cases heq : (a.span.slot j).len = len
  · rw [if_pos heq] at htake
    refine ⟨_, htake, CTable.toList_split _ hin, hlen', ?_, rfl⟩
    show (a.span.removeAt j).toList = _
    rw [CTable.toList_removeAt_split _ hin, dropFront, if_pos heq, List.append_nil]
    rfl
  · rw [if_neg heq] at htake
    refine ⟨_, htake, CTable.toList_split _ hin, hlen', ?_, rfl⟩
    show (a.span.set j _).toList = _
    have hstart : Word64.add (a.span.slot j).start len = (a.span.slot j).start + len :=
      Word64.add_of_lt (by unfold stop at hstop; omega)
    have hcut : Word64.sub (a.span.slot j).len len = (a.span.slot j).len - len :=
      Word64.sub_of_le hlen' (by unfold stop at hstop; omega)
    rw [CTable.toList_set_split _ _ hin, dropFront, if_neg heq, hstart, hcut]
    simp [OrbisJitArena.spans]

/-- **`orbis_jit_take`** cuts `len` addresses off the front of one member and hands them out. -/
theorem orbisJitTake_eq_some {a a' : OrbisJitArena} {len p : ℕ} (hfit : Fits a)
    (h : orbisJitTake a len = some (a', p)) :
    ∃ pre s post, a.spans = pre ++ s :: post ∧ len ≤ s.len ∧ p = s.start ∧
      a'.spans = pre ++ dropFront s len ++ post ∧ a' = { a with span := a'.span } := by
  obtain ⟨j, hj, -⟩ := Option.map_eq_some_iff.mp h
  obtain ⟨a'', htake, hspans, hlen, hspans', hfields⟩ := orbisJitTake_firstFit hfit hj
  obtain ⟨rfl, rfl⟩ := Prod.mk.inj (Option.some.inj (h.symm.trans htake))
  exact ⟨_, _, _, hspans, hlen, rfl, hspans', hfields⟩

/-! ### Coalescing -/

theorem orbisJitJoinPrev_eq {t : CTable OrbisJitSpan} {i : ℕ} (hi : i + 1 < t.n) :
    orbisJitJoinPrev t (i + 1) = orbisJitJoinNext t i := by
  unfold orbisJitJoinPrev orbisJitJoinNext
  have h1 : t.n - (i + 1) - 1 = t.n - i - 2 := by omega
  simp only [Nat.add_sub_cancel, Nat.zero_lt_succ, true_and, hi, h1]

@[simp] theorem orbisJitJoinPrev_zero (t : CTable OrbisJitSpan) : orbisJitJoinPrev t 0 = t := by
  simp [orbisJitJoinPrev]

/-- One coalescing step at the index of `e` joins `e` with the span after it. -/
theorem toList_orbisJitJoinNext {t : CTable OrbisJitSpan} {pre post : List Extent} {e : Extent}
    (ht : t.toList = pre ++ e :: post) (hfit : ∀ s ∈ e :: post, s.stop < 2 ^ 64) :
    (orbisJitJoinNext t pre.length).toList = pre ++ joinFwd e post := by
  have hn := CTable.n_of_split ht
  have he := CTable.slot_of_split ht
  unfold orbisJitJoinNext
  cases post with
  | nil =>
    rw [if_neg (by rw [hn]; simp), ht, joinFwd]
  | cons f post =>
    have hf : t.slot (pre.length + 1) = f := by
      have ht' : t.toList = (pre ++ [e]) ++ f :: post := by simpa using ht
      simpa using CTable.slot_of_split ht'
    have hestop : e.stop < 2 ^ 64 := hfit e (by simp)
    have hfstop : f.stop < 2 ^ 64 := hfit f (by simp)
    have hlt : pre.length + 1 < t.n := by rw [hn]; simp
    rw [he, hf, orbisJitSpanEnd_eq hestop, joinFwd_cons]
    by_cases htouch : e.stop = f.start
    · have hsum : Word64.add e.len f.len = e.len + f.len :=
        Word64.add_of_lt (by unfold stop at *; omega)
      rw [if_pos ⟨hlt, htouch⟩, if_pos htouch, hsum]
      exact CTable.toList_merge ht
    · rw [if_neg (fun h => htouch h.2), if_neg htouch, ht]

/-! ### Giving -/

/-- The insertion index splits the list into the spans below `p` and the rest. -/
theorem orbisJitGiveIdx_spec (a : OrbisJitArena) (p : ℕ) :
    orbisJitGiveIdx a p ≤ a.nspans ∧
      (∀ s ∈ a.spans.take (orbisJitGiveIdx a p), s.start < p) ∧
      (∀ s ∈ (a.spans.drop (orbisJitGiveIdx a p)).head?, p ≤ s.start) := by
  have hbelow : ∀ i ≤ a.nspans, (∀ j < i, (a.span.slot j).start < p) →
      ∀ s ∈ a.spans.take i, s.start < p := by
    intro i hi h s hs
    obtain ⟨j, hj, rfl⟩ := List.mem_iff_getElem.mp hs
    rw [List.length_take] at hj
    simpa [OrbisJitArena.spans] using h j (by omega)
  unfold orbisJitGiveIdx
  cases h : a.span.firstIdx fun s => !decide (s.start < p) with
  | none =>
    have hall := CTable.firstIdx_eq_none.mp h
    refine ⟨le_rfl, hbelow _ le_rfl fun j hj => by simpa using hall j hj, ?_⟩
    simp [OrbisJitArena.spans, OrbisJitArena.nspans]
  | some i =>
    obtain ⟨hi, hpi, hlt⟩ := CTable.firstIdx_eq_some.mp h
    refine ⟨le_of_lt hi, hbelow _ (le_of_lt hi) fun j hj => by simpa using hlt j hj, ?_⟩
    have hlen : i < a.spans.length := by simpa [OrbisJitArena.nspans] using hi
    rw [Option.getD_some, List.drop_eq_getElem_cons hlen]
    simpa [OrbisJitArena.spans] using hpi

/-- The insertion index of a list that is cut between the spans below `p` and the rest. -/
theorem orbisJitGiveIdx_eq {a : OrbisJitArena} {p : ℕ} {pre post : List Extent}
    (hspans : a.spans = pre ++ post) (hpre : ∀ s ∈ pre, s.start < p)
    (hpost : ∀ s ∈ post.head?, p ≤ s.start) : orbisJitGiveIdx a p = pre.length := by
  have hlen : a.span.n = pre.length + post.length := by
    rw [← CTable.length_toList, ← List.length_append, ← hspans]
    rfl
  have hslot : ∀ k (hk : k < (pre ++ post).length), a.span.slot k = (pre ++ post)[k] := by
    intro k hk
    simp only [← hspans, OrbisJitArena.spans, CTable.getElem_toList]
  have hbelow : ∀ k < pre.length, (a.span.slot k).start < p := by
    intro k hk
    rw [hslot k (by rw [List.length_append]; omega), List.getElem_append_left hk]
    exact hpre _ (List.getElem_mem hk)
  unfold orbisJitGiveIdx
  cases post with
  | nil =>
    have hnone : a.span.firstIdx (fun s => !decide (s.start < p)) = none :=
      CTable.firstIdx_eq_none.mpr fun k hk => by simpa using hbelow k (by simpa [hlen] using hk)
    rw [hnone, Option.getD_none, OrbisJitArena.nspans, hlen]
    rfl
  | cons f post =>
    have hsome : a.span.firstIdx (fun s => !decide (s.start < p)) = some pre.length := by
      refine CTable.firstIdx_eq_some.mpr ⟨by rw [hlen, List.length_cons]; omega, ?_,
        fun k hk => by simpa using hbelow k hk⟩
      rw [hslot _ (by simp), List.getElem_append_right le_rfl]
      simpa using hpost f rfl
    rw [hsome, Option.getD_some]

theorem orbisJitGive_full {a : OrbisJitArena} {p len : ℕ} (h : orbisJitMaxSpans ≤ a.nspans) :
    orbisJitGive a p len = a := by
  unfold orbisJitGive
  exact if_pos h

theorem orbisJitGive_fields (a : OrbisJitArena) (p len : ℕ) :
    orbisJitGive a p len = { a with span := (orbisJitGive a p len).span } := by
  unfold orbisJitGive
  dsimp only
  split_ifs <;> rfl

/-- **`orbis_jit_give`** on a list that is not full: the block goes between the spans below it and
the rest, joined with what it touches. -/
theorem orbisJitGive_spans {a : OrbisJitArena} {p len : ℕ} (hfit : Fits a)
    (hp : p + len < 2 ^ 64) (hroom : a.nspans < orbisJitMaxSpans) :
    (orbisJitGive a p len).spans
      = joinAround (a.spans.take (orbisJitGiveIdx a p)) ⟨p, len⟩
          (a.spans.drop (orbisJitGiveIdx a p)) := by
  obtain ⟨hidx, -, -⟩ := orbisJitGiveIdx_spec a p
  set i := orbisJitGiveIdx a p with hi
  set pre := a.spans.take i with hpre
  set post := a.spans.drop i with hpost
  have hlen : pre.length = i := by simp [hpre, hidx]
  have hmem : ∀ s ∈ pre ++ post, s.stop < 2 ^ 64 := by
    rw [hpre, hpost, List.take_append_drop]; exact hfit
  have ht : (a.span.insertAt i ⟨p, len⟩).toList = pre ++ ⟨p, len⟩ :: post :=
    CTable.toList_insertAt_split _ _ hidx
  have hfitE : ∀ s ∈ (⟨p, len⟩ : Extent) :: post, s.stop < 2 ^ 64 := by
    intro s hs
    rcases List.mem_cons.mp hs with rfl | hs
    · exact hp
    · exact hmem s (List.mem_append_right _ hs)
  have hnext := toList_orbisJitJoinNext ht hfitE
  rw [hlen] at hnext
  unfold orbisJitGive
  dsimp only
  rw [← hi, if_neg (Nat.not_le.mpr hroom)]
  show (orbisJitJoinPrev (orbisJitJoinNext (a.span.insertAt i ⟨p, len⟩) i) i).toList = _
  rcases List.eq_nil_or_concat' pre with hnil | ⟨pre', d, hcat⟩
  · -- nothing below: the backward half does not run
    rw [hnil] at hlen hnext ⊢
    rw [← hlen, List.length_nil, orbisJitJoinPrev_zero]
    rw [← hlen, List.length_nil] at hnext
    exact hnext
  · -- the backward half is the forward half one index down
    have hi' : i = pre'.length + 1 := by rw [← hlen, hcat]; simp
    rw [hcat, joinAround_concat]
    rw [hcat, List.append_assoc, List.singleton_append] at hnext
    generalize orbisJitJoinNext (a.span.insertAt i ⟨p, len⟩) i = t at hnext ⊢
    have hn : pre'.length + 1 < t.n := by
      rw [← CTable.length_toList, hnext]
      have : 0 < (joinFwd ⟨p, len⟩ post).length := by
        cases post with
        | nil => simp [joinFwd]
        | cons f l => rw [joinFwd_cons]; split_ifs <;> simp
      simp only [List.length_append, List.length_cons]
      omega
    rw [hi', orbisJitJoinPrev_eq hn]
    refine toList_orbisJitJoinNext hnext fun s hs => ?_
    rcases List.mem_cons.mp hs with rfl | hs
    · exact hmem s (by rw [hcat]; simp)
    · refine forall_joinFwd (P := fun s => s.stop < 2 ^ 64) (fun x y _ hy hxy => ?_) (by exact hp)
        (fun f hf => hmem f (List.mem_append_right _ hf)) s hs
      unfold stop at *
      dsimp only
      omega

/-! ### What giving adds, on any list -/

/-- The lengths of the spans, added up as 64-bit words. -/
def spanTotal (l : List Extent) : ℕ := (l.map Extent.len).sum % 2 ^ 64

theorem spanTotal_split (pre post : List Extent) (e : Extent) :
    spanTotal (pre ++ e :: post) = (spanTotal (pre ++ post) + e.len) % 2 ^ 64 := by
  unfold spanTotal
  rw [Nat.mod_add_mod]
  simp only [List.map_append, List.map_cons, List.sum_append, List.sum_cons]
  congr 1
  omega

/-- Joining two spans adds their lengths. -/
theorem spanTotal_orbisJitJoinNext (t : CTable OrbisJitSpan) (i : ℕ) :
    spanTotal (orbisJitJoinNext t i).toList = spanTotal t.toList := by
  unfold orbisJitJoinNext
  split_ifs with h
  · have ht := CTable.toList_split_two t h.1
    have hlen : (t.toList.take i).length = i := by
      rw [List.length_take, CTable.length_toList]
      omega
    have hmerge := CTable.toList_merge (v := ⟨(t.slot i).start, Word64.add (t.slot i).len
      (t.slot (i + 1)).len⟩) ht
    rw [hlen] at hmerge
    refine (congrArg spanTotal hmerge).trans ?_
    conv_rhs => rw [ht]
    rw [spanTotal_split, spanTotal_split, spanTotal_split, Nat.mod_add_mod, Word64.add,
      Nat.add_mod_mod, ← Nat.add_assoc, Nat.add_right_comm]
  · rfl

theorem lt_orbisJitJoinNext_n {t : CTable OrbisJitSpan} {i : ℕ} (hi : i < t.n) :
    i < (orbisJitJoinNext t i).n := by
  unfold orbisJitJoinNext
  split_ifs with h
  · show i < t.n - 1
    omega
  · exact hi

/-- What is given back is added to the total, wherever it goes and whatever it joins. -/
theorem spanTotal_orbisJitGive {a : OrbisJitArena} (p len : ℕ) (hroom : a.nspans < orbisJitMaxSpans) :
    spanTotal (orbisJitGive a p len).spans = (spanTotal a.spans + len) % 2 ^ 64 := by
  obtain ⟨hidx, -, -⟩ := orbisJitGiveIdx_spec a p
  unfold orbisJitGive
  dsimp only
  rw [if_neg (Nat.not_le.mpr hroom)]
  generalize orbisJitGiveIdx a p = i at hidx
  show spanTotal (orbisJitJoinPrev (orbisJitJoinNext (a.span.insertAt i ⟨p, len⟩) i) i).toList = _
  have hins : spanTotal (a.span.insertAt i ⟨p, len⟩).toList = (spanTotal a.spans + len) % 2 ^ 64 := by
    rw [CTable.toList_insertAt_split _ _ hidx, spanTotal_split, List.take_append_drop]
    rfl
  rw [← hins, ← spanTotal_orbisJitJoinNext (a.span.insertAt i ⟨p, len⟩) i]
  have hlt : i < (orbisJitJoinNext (a.span.insertAt i ⟨p, len⟩) i).n :=
    lt_orbisJitJoinNext_n (Nat.lt_succ_of_le hidx)
  cases i with
  | zero => rw [orbisJitJoinPrev_zero]
  | succ i => rw [orbisJitJoinPrev_eq hlt, spanTotal_orbisJitJoinNext]

/-- Giving a block back shows in the list, even where it overlaps what is there. -/
theorem orbisJitGive_spans_ne {a : OrbisJitArena} {p len : ℕ} (hroom : a.nspans < orbisJitMaxSpans)
    (hpos : 0 < len) (hlt : len < 2 ^ 64) : (orbisJitGive a p len).spans ≠ a.spans := by
  intro heq
  have htotal := spanTotal_orbisJitGive p len hroom
  rw [heq] at htotal
  have hbound : spanTotal a.spans < 2 ^ 64 := Nat.mod_lt _ (by norm_num)
  omega

end OrbisCompat.Jit
