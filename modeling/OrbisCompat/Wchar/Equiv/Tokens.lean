import OrbisCompat.Wchar.String

/-!
# `wcstok` takes a string apart

The tokens are the pieces between the separators that are not empty, in order.  What is left of the string in front of a token
that is found later does not change any more (`tokens_from`), so every token is still there at the end.
-/

namespace OrbisCompat.Wchar

variable {c s sep t u rest : List ℕ} {x : ℕ}

/-! ### Spans -/

theorem wcschrLoop_eq (x : ℕ) (s : List ℕ) :
    wcschrLoop x s = if x ∈ s then some (s.takeWhile (· ≠ x)).length else none := by
  induction s with
  | nil => rfl
  | cons y s ih =>
    rw [wcschrLoop]
    by_cases hy : y = x
    · rw [if_neg (not_not.mpr hy), if_pos (hy ▸ List.mem_cons_self), List.takeWhile_cons_of_neg (by simp [hy]),
        List.length_nil]
    · have hiff : x ∈ y :: s ↔ x ∈ s := by rw [List.mem_cons, or_iff_right (Ne.symm hy)]
      rw [if_pos hy, ih, List.takeWhile_cons_of_pos (by simpa using hy)]
      by_cases hx : x ∈ s
      · rw [if_pos hx, if_pos (hiff.mpr hx)]
        rfl
      · rw [if_neg hx, if_neg (mt hiff.mp hx)]
        rfl

theorem wcschr_isSome (hx : x ≠ 0) : (wcschr s x).isSome = decide (x ∈ s) := by
  rw [wcschr, if_neg hx, wcschrLoop_eq]
  split_ifs with h
  · exact (decide_eq_true h).symm
  · exact (decide_eq_false h).symm

theorem wcsspn_eq (hs : 0 ∉ s) : wcsspn c s = (s.takeWhile (· ∈ c)).length := by
  induction s with
  | nil => rfl
  | cons x s ih =>
    obtain ⟨hx, hs⟩ := List.ne_and_not_mem_of_not_mem_cons hs
    rw [wcsspn, wcschr_isSome hx.symm]
    by_cases hmem : x ∈ c
    · rw [if_pos (decide_eq_true hmem), ih hs, List.takeWhile_cons_of_pos (by simpa using hmem), List.length_cons]
    · rw [if_neg (by simpa using hmem), List.takeWhile_cons_of_neg (by simpa using hmem), List.length_nil]

theorem wcscspnLoop_eq (hs : 0 ∉ s) : wcscspnLoop c s = (s.takeWhile (· ∉ c)).length := by
  induction s with
  | nil => rfl
  | cons x s ih =>
    obtain ⟨hx, hs⟩ := List.ne_and_not_mem_of_not_mem_cons hs
    rw [wcscspnLoop, wcschr_isSome hx.symm]
    by_cases hmem : x ∈ c
    · rw [if_pos (decide_eq_true hmem), List.takeWhile_cons_of_neg (by simpa using hmem), List.length_nil]
    · rw [if_neg (by simpa using hmem), ih hs, List.takeWhile_cons_of_pos (by simpa using hmem), List.length_cons]

/-- The two short ways of `wcscspn` come to what its loop does. -/
theorem wcscspn_eq (hc : 0 ∉ c) (hs : 0 ∉ s) : wcscspn c s = (s.takeWhile (· ∉ c)).length := by
  unfold wcscspn
  split
  · rw [List.takeWhile_eq_self_iff.mpr fun x _ => decide_eq_true List.not_mem_nil]
  · rename_i x
    have hx : x ≠ 0 := fun h0 => hc (List.mem_singleton.mpr h0.symm)
    have hset : s.takeWhile (· ∉ [x]) = s.takeWhile (· ≠ x) := by simp only [List.mem_singleton]
    rw [wcschr, if_neg hx, wcschrLoop_eq, hset]
    split_ifs with hmem
    · rfl
    · rw [List.takeWhile_eq_self_iff.mpr fun y hy => decide_eq_true (ne_of_mem_of_not_mem hy hmem)]
      rfl
  · exact wcscspnLoop_eq hs

/-! ### Pieces -/

/-- What is between the separators, where there is something. -/
def pieces (sep s : List ℕ) : List (List ℕ) := (s.splitOnP (· ∈ sep)).filter (· ≠ [])

/-- Separators in front. -/
theorem pieces_append (hu : ∀ x ∈ u, x ∈ sep) (t : List ℕ) : pieces sep (u ++ t) = pieces sep t := by
  induction u with
  | nil => rfl
  | cons x u ih =>
    have hcons : pieces sep (x :: (u ++ t)) = pieces sep (u ++ t) := by
      have := List.splitOnP_append_cons (p := (· ∈ sep)) [] (u ++ t) (decide_eq_true (hu x List.mem_cons_self))
      rw [List.nil_append, List.splitOnP_nil] at this
      rw [pieces, this, List.singleton_append, List.filter_cons_of_neg (by simp), pieces]
    rw [List.cons_append, hcons, ih fun y hy => hu y (List.mem_cons_of_mem _ hy)]

/-- A piece up to its separator. -/
theorem pieces_cons (hu : ∀ y ∈ u, y ∉ sep) (hne : u ≠ []) (hx : x ∈ sep) (t : List ℕ) :
    pieces sep (u ++ x :: t) = u :: pieces sep t := by
  have := List.splitOnP_append_cons (p := (· ∈ sep)) u t (decide_eq_true hx)
  rw [List.splitOnP_eq_singleton fun y hy => decide_eq_false (hu y hy), List.singleton_append] at this
  rw [pieces, this, List.filter_cons_of_pos (by simpa using hne), pieces]

/-- A piece up to the end. -/
theorem pieces_self (hu : ∀ y ∈ u, y ∉ sep) (hne : u ≠ []) : pieces sep u = [u] := by
  rw [pieces, List.splitOnP_eq_singleton fun y hy => decide_eq_false (hu y hy), List.filter_cons_of_pos (by simpa using hne),
    List.filter_nil]

/-! ### One call -/

/-- An array with a string in it, behind what a search has left behind. -/
theorem stringAt_append (u : List ℕ) (ht : 0 ∉ t) (rest : List ℕ) : stringAt (u ++ (t ++ 0 :: rest)) u.length = some t := by
  rw [stringAt, List.drop_left, Buffer.cstr_append ht]

/-- What `wcstok` makes of a string: nothing but separators; a last token; or a token and its separator. -/
theorem wcstok_eq (hsep : 0 ∉ sep) (u : List ℕ) (ht : 0 ∉ t) (rest : List ℕ) {s p : Option ℕ} (hsp : (s <|> p) = some u.length) :
    (pieces sep t = [] ∧ wcstok (u ++ (t ++ 0 :: rest)) s sep p = some (none, u ++ (t ++ 0 :: rest), none)) ∨
      (∃ pre w, t = pre ++ w ∧ w ≠ [] ∧ pieces sep t = [w] ∧
        wcstok (u ++ (t ++ 0 :: rest)) s sep p = some (some (u ++ pre).length, u ++ (t ++ 0 :: rest), none)) ∨
      ∃ pre w x t', t = pre ++ (w ++ x :: t') ∧ x ∈ sep ∧ pieces sep t = w :: pieces sep t' ∧
        wcstok (u ++ (t ++ 0 :: rest)) s sep p =
          some (some (u ++ pre).length, (u ++ pre ++ w ++ [0]) ++ (t' ++ 0 :: rest), some (u ++ pre ++ w ++ [0]).length) := by
  set pre := t.takeWhile (· ∈ sep) with hpre
  set v := t.dropWhile (· ∈ sep) with hv
  have htv : t = pre ++ v := List.takeWhile_append_dropWhile.symm
  have hv0 : 0 ∉ v := fun h0 => ht (htv ▸ List.mem_append_right _ h0)
  have hpres : ∀ x ∈ pre, x ∈ sep := fun x hx => by simpa using List.mem_takeWhile_imp hx
  have hdrop : t.drop pre.length = v := by
    rw [htv, List.drop_left]
  have hpieces : pieces sep t = pieces sep v := by
    rw [htv, pieces_append hpres]
  unfold wcstok
  rw [hsp]
  dsimp only
  rw [stringAt_append u ht rest, Option.bind_eq_bind, Option.bind_some, wcsspn_eq ht, ← hpre, hdrop]
  by_cases hnil : v = []
  · -- only separators are left
    rw [if_pos hnil]
    exact .inl ⟨by rw [hpieces, hnil]; rfl, rfl⟩
  · rw [if_neg hnil, wcscspn_eq hsep hv0]
    set w := v.takeWhile (· ∉ sep) with hw
    have hvw : v = w ++ v.dropWhile (· ∉ sep) := List.takeWhile_append_dropWhile.symm
    have hws : ∀ y ∈ w, y ∉ sep := fun y hy => by simpa using List.mem_takeWhile_imp hy
    have hhead : ∀ y, v.head? = some y → y ∉ sep := by
      intro y hy
      have := List.head?_dropWhile_not (· ∈ sep) t
      rw [← hv, hy] at this
      simpa using this
    have hwne : w ≠ [] := by
      obtain ⟨y, v', hyv⟩ := List.exists_cons_of_ne_nil hnil
      rw [hw, hyv, List.takeWhile_cons_of_pos (by simpa using hhead y (by rw [hyv]; rfl))]
      exact List.cons_ne_nil _ _
    have hdropw : v.drop w.length = v.dropWhile (· ∉ sep) := by
      conv_lhs => rw [hvw]
      exact List.drop_left
    rw [hdropw, ← List.length_append, ← List.length_append]
    cases hrest : v.dropWhile (· ∉ sep) with
    | nil =>
      -- the token goes up to the end
      rw [hrest, List.append_nil] at hvw
      rw [if_neg (not_not.mpr rfl)]
      refine .inr (.inl ⟨pre, w, by rw [htv, hvw], hwne, ?_, rfl⟩)
      rw [hpieces, hvw, pieces_self hws hwne]
    | cons x t' =>
      have hx : x ∈ sep := by
        have := List.head?_dropWhile_not (· ∉ sep) v
        rw [hrest] at this
        simpa using this
      rw [hrest] at hvw
      have harray : u ++ (t ++ 0 :: rest) = (u ++ pre ++ w) ++ x :: (t' ++ 0 :: rest) := by
        rw [htv, hvw]
        simp only [List.append_assoc, List.cons_append]
      rw [if_pos (List.cons_ne_nil _ _), harray, Buffer.store_append, Option.bind_some]
      refine .inr (.inr ⟨pre, w, x, t', by rw [htv, hvw], hx, ?_, ?_⟩)
      · rw [hpieces, hvw, pieces_cons hws hwne hx]
      · have hlen : (u ++ pre ++ w ++ [0]).length = (u ++ pre ++ w).length + 1 := by
          rw [List.length_append, List.length_singleton]
        rw [List.append_cons, hlen]

/-! ### All tokens -/

/-- What the search has made of a string: only separators are overwritten, by terminators. -/
def Cut (sep t t' : List ℕ) : Prop := List.Forall₂ (fun a b => b = a ∨ a ∈ sep ∧ b = 0) t t'

theorem Cut.refl (t : List ℕ) : Cut sep t t := List.forall₂_same.mpr fun _ _ => .inl rfl

theorem tokens_from (hsep : 0 ∉ sep) (u : List ℕ) (ht : 0 ∉ t) (rest : List ℕ) {fuel : ℕ} (hfuel : t.length < fuel)
    {s p : Option ℕ} (hsp : (s <|> p) = some u.length) :
    ∃ rs t', tokens sep (fuel + 1) (u ++ (t ++ 0 :: rest)) s p = some (rs, u ++ (t' ++ 0 :: rest)) ∧ Cut sep t t' ∧
      rs.map (stringAt (u ++ (t' ++ 0 :: rest))) = (pieces sep t).map some := by
  induction fuel generalizing u t s p with
  | zero => omega
  | succ fuel ih =>
    rw [tokens]
    rcases wcstok_eq hsep u ht rest hsp with ⟨hnone, hcall⟩ | ⟨pre, w, rfl, hne, hone, hcall⟩ | ⟨pre, w, x, t', rfl, hx, hmore, hcall⟩
    · rw [hcall, hnone]
      exact ⟨[], t, rfl, .refl t, rfl⟩
    · rw [hcall, hone]
      refine ⟨[(u ++ pre).length], pre ++ w, rfl, .refl _, ?_⟩
      have hw : 0 ∉ w := fun h0 => ht (List.mem_append_right _ h0)
      rw [List.map_singleton, List.map_singleton, List.append_assoc, ← List.append_assoc u, stringAt_append _ hw]
    · have ht' : 0 ∉ t' := fun h0 => ht (by simp [h0])
      have hw : 0 ∉ w := fun h0 => ht (by simp [h0])
      have hlen : t'.length < fuel := by
        simp only [List.length_append, List.length_cons] at hfuel
        omega
      obtain ⟨rs, t'', hrest, hcut, hrs⟩ := ih (u ++ pre ++ w ++ [0]) ht' hlen (s := none) rfl
      -- the array, seen from the front of the string and from behind the token
      have harray : (u ++ pre ++ w ++ [0]) ++ (t'' ++ 0 :: rest) = u ++ ((pre ++ (w ++ 0 :: t'')) ++ 0 :: rest) := by
        simp only [List.append_assoc, List.cons_append, List.nil_append]
      rw [harray] at hrest hrs
      rw [hcall, Option.bind_eq_bind, Option.bind_some]
      dsimp only
      rw [hrest, Option.bind_eq_bind, Option.bind_some, hmore]
      refine ⟨_, _, rfl, ?_, ?_⟩
      · exact List.rel_append (Cut.refl pre) (List.rel_append (Cut.refl w) (.cons (.inr ⟨hx, rfl⟩) hcut))
      · rw [List.map_cons, List.map_cons, hrs]
        have hfirst : u ++ ((pre ++ (w ++ 0 :: t'')) ++ 0 :: rest) = (u ++ pre) ++ (w ++ 0 :: (t'' ++ 0 :: rest)) := by
          simp only [List.append_assoc, List.cons_append]
        rw [hfirst, stringAt_append _ hw]

/-- **`wcstok` takes a string apart**: a caller that asks until there is no token finds the pieces between the separators that
are not empty, in order; all of them are there when the last one is found, and nothing but separators has been overwritten. -/
theorem tokens_eq_pieces (s sep : WideString) (rest : List ℕ) :
    ∃ rs s', tokens sep.chars (s.chars.length + 2) (s.chars ++ 0 :: rest) (some 0) none = some (rs, s' ++ 0 :: rest) ∧
      Cut sep.chars s.chars s' ∧
      rs.map (stringAt (s' ++ 0 :: rest)) = (pieces sep.chars s.chars).map some :=
  tokens_from (fun h0 => sep.ne_zero 0 h0 rfl) [] (fun h0 => s.ne_zero 0 h0 rfl) rest (Nat.lt_succ_self _) rfl

end OrbisCompat.Wchar
