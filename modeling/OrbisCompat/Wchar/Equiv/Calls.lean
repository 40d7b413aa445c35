import OrbisCompat.Wchar.Equiv.Srtowcs

/-!
# Calls of `mbrtowc`, one after the other

How the calls over a string follow from the calls over a part of it: what they end with before the end of the part is
all there is (`calls_append`), after `a` characters they go on as if they had started there (`calls_add`), and where
the part ends inside a character they go on at that character (`calls_resume`).  A character takes four bytes at most
(`not_short_of_length`).
-/

namespace OrbisCompat.Wchar.Restart

open Chunked Utf8

variable {a b c d j k st wn : ℕ} {s t : List ℕ}

/-! ### The first call -/

/-- What the first call does, and what it leaves to the others. -/
inductive First (st : ℕ) (s : List ℕ) : Prop
  | short (x : ℕ) (hcall : call push 0 st s = .more x) (h : ∀ wn, calls (wn + 1) st s = ⟨[], 0, .short, x⟩)
  | bad (hcall : call push 0 st s = .bad 0) (h : ∀ wn, calls (wn + 1) st s = ⟨[], 0, .bad, 0⟩)
  | nul (hst : st = 0) (hhead : ∃ t, s = 0 :: t) (h : ∀ wn, calls (wn + 1) st s = ⟨[], 0, .nul, 0⟩)
  | char (c j : ℕ) (hcall : call push 0 st s = .item c j 0) (hne : ¬(st = 0 ∧ s.head? = some 0)) (hj : 0 < j)
      (hle : j ≤ s.length) (h : ∀ wn, calls (wn + 1) st s = (calls wn 0 (s.drop j)).cons c j)

theorem call_bad_st (h : call push 0 st s = .bad c) : c = 0 := by
  induction s generalizing st with
  | nil => cases h
  | cons b s ih =>
    cases hpush : push st b with
    | item x =>
      rw [call_cons_item hpush] at h
      cases h
    | bad =>
      rw [call_cons_bad hpush] at h
      injection h with h
      exact h.symm
    | more st' =>
      rw [call_cons_more hpush] at h
      cases hcall : call push 0 st' s with
      | item x k y =>
        rw [hcall] at h
        cases h
      | more y =>
        rw [hcall] at h
        cases h
      | bad y =>
        rw [hcall] at h
        injection h with h
        exact ih (h ▸ hcall)

theorem first_call (hst : Between st) (hs : ∀ b ∈ s, b < 256) : First st s := by
  cases hcall : call push 0 st s with
  | more x => exact .short x hcall (calls_more hst hs hcall)
  | bad x =>
    obtain rfl := call_bad_st hcall
    exact .bad hcall (calls_bad hst hs hcall)
  | item c j x =>
    obtain ⟨hj, hle, rfl⟩ := call_item hcall
    by_cases hnul : st = 0 ∧ s.head? = some 0
    · obtain ⟨rfl, hhead⟩ := hnul
      obtain ⟨t, rfl⟩ := List.head?_eq_some_iff.mp hhead
      exact .nul rfl ⟨t, rfl⟩ fun wn => calls_nul wn t
    · exact .char c j hcall hnul hj hle (calls_char hst hs hcall hnul)

theorem forall_drop (hs : ∀ b ∈ s, b < 256) (j : ℕ) : ∀ b ∈ s.drop j, b < 256 :=
  fun b hb => hs b (List.mem_of_mem_drop hb)

/-! ### How long a character is -/

/-- Inside a character, three bytes are enough. -/
theorem call_inside (hst : Inside st) (hs : ∀ b ∈ s, b < 256) :
    (∀ x, call push 0 st s = .more x → s.length ≤ 2) ∧ ∀ c j x, call push 0 st s = .item c j x → j ≤ 3 := by
  have hnil : ∀ st : ℕ, call push 0 st ([] : List ℕ) = .more st := fun _ => rfl
  cases s with
  | nil => simp [hnil]
  | cons b s =>
    rw [List.forall_mem_cons] at hs
    obtain ⟨hb, hs⟩ := hs
    -- one byte: the state that it leaves is in the middle of a character
    cases hpush : push st b with
    | item c => simp [call_cons_item hpush]
    | bad => simp [call_cons_bad hpush]
    | more st₁ =>
      have hmid₁ : Mid st₁ := by
        have hoob : OOB st b = 0 := by
          by_contra hoob
          rw [push_oob hst hoob] at hpush
          cases hpush
        have hnext := push_next hst hb hoob
        rw [hpush] at hnext
        split_ifs at hnext with hdone
        have heq := Pushed.more.inj hnext
        rw [← shift_in (hst.trail hb hoob)] at heq hdone
        exact heq ▸ hst.next hb hoob hdone
      rw [call_cons_more hpush]
      cases s with
      | nil => simp [hnil]
      | cons b₁ s =>
        rw [List.forall_mem_cons] at hs
        obtain ⟨hb₁, hs⟩ := hs
        -- two bytes: the third is the last one then
        cases hpush₁ : push st₁ b₁ with
        | item c => simp [call_cons_item hpush₁]
        | bad => simp [call_cons_bad hpush₁]
        | more st₂ =>
          have hin₂ : Inside st₂ := by
            have hone : call push 0 st₁ [b₁] = .more st₂ := call_cons_more hpush₁ []
            rcases inside_of_call (Or.inr (.mid hmid₁)) (by simpa using hb₁) hone with ⟨hnil, -⟩ | hin
            · cases hnil
            · exact hin
          have ht₁ : Trail b₁ := by
            by_contra ht
            rw [push_oob (.mid hmid₁) (mt (hmid₁.oob hb₁).mp ht)] at hpush₁
            cases hpush₁
          rw [call_cons_more hpush₁]
          cases s with
          | nil => simp [hnil]
          | cons b₂ s =>
            rw [List.forall_mem_cons] at hs
            by_cases hoob₂ : OOB st₂ b₂ = 0
            · have hlast := push_mid_mid hmid₁ ht₁ hpush₁ (hin₂.trail hs.1 hoob₂)
              simp [call_cons_item hlast]
            · simp [call_cons_bad (push_oob hin₂ hoob₂)]

/-- A character takes four bytes at most. -/
theorem call_length (hst : Between st) (hs : ∀ b ∈ s, b < 256) :
    (∀ x, call push 0 st s = .more x → s.length ≤ 3) ∧ ∀ c j x, call push 0 st s = .item c j x → j ≤ 4 := by
  rcases hst with rfl | hin
  · cases s with
    | nil => simp [call]
    | cons b s =>
      rw [List.forall_mem_cons] at hs
      obtain ⟨hb, hs⟩ := hs
      cases hpush : push 0 b with
      | item c => simp [call_cons_item hpush]
      | bad => simp [call_cons_bad hpush]
      | more st₁ =>
        have hin₁ : Inside st₁ := by
          have hone : call push 0 0 [b] = .more st₁ := call_cons_more hpush []
          rcases inside_of_call (Or.inl rfl) (by simpa using hb) hone with ⟨hnil, -⟩ | hin
          · cases hnil
          · exact hin
        obtain ⟨hmore, hitem⟩ := call_inside hin₁ hs
        rw [call_cons_more hpush]
        constructor
        · intro x h
          cases hcall : call push 0 st₁ s with
          | more y => exact Nat.succ_le_succ (hmore y hcall)
          | item c k y =>
            rw [hcall] at h
            cases h
          | bad y =>
            rw [hcall] at h
            cases h
        · intro c j x h
          cases hcall : call push 0 st₁ s with
          | item c' k y =>
            rw [hcall] at h
            injection h with _ hj
            exact hj ▸ Nat.succ_le_succ (hitem c' k y hcall)
          | more y =>
            rw [hcall] at h
            cases h
          | bad y =>
            rw [hcall] at h
            cases h
  · obtain ⟨hmore, hitem⟩ := call_inside hin hs
    exact ⟨fun x h => (hmore x h).trans (by norm_num), fun c j x h => (hitem c j x h).trans (by norm_num)⟩

/-- **Four bytes for each character** are enough. -/
theorem not_short_of_length (wn : ℕ) : ∀ {st : ℕ} {s : List ℕ}, Between st → (∀ b ∈ s, b < 256) → 4 * wn ≤ s.length →
    (calls wn st s).ended ≠ .short := by
  induction wn with
  | zero => exact fun _ _ _ => by simp [calls]
  | succ wn ih =>
    intro st s hst hs hlen
    cases first_call hst hs with
    | short x hcall _ =>
      have := (call_length hst hs).1 x hcall
      omega
    | bad _ h => simp [h]
    | nul _ _ h => simp [h]
    | char c j hcall _ _ _ h =>
      have hj := (call_length hst hs).2 c j 0 hcall
      rw [h]
      refine ih (Or.inl rfl) (forall_drop hs j) ?_
      rw [List.length_drop]
      omega

/-! ### Parts of a string -/

theorem calls_append (wn : ℕ) : ∀ {st : ℕ} {s t : List ℕ}, Between st → (∀ b ∈ s ++ t, b < 256) →
    (calls wn st s).ended ≠ .short → calls wn st (s ++ t) = calls wn st s := by
  induction wn with
  | zero => exact fun _ _ _ => rfl
  | succ wn ih =>
    intro st s t hst hst' hshort
    have hs := (List.forall_mem_append.mp hst').1
    cases first_call hst hs with
    | short x _ h => simp [h] at hshort
    | bad hcall h =>
      have hcall' : call push 0 st (s ++ t) = .bad 0 := by rw [call_append, hcall]
      rw [calls_bad hst hst' hcall', h]
    | nul hzero hhead _ =>
      obtain ⟨t', rfl⟩ := hhead
      rw [hzero, List.cons_append, calls_nul, calls_nul]
    | char c j hcall hne _ hle h =>
      have hcall' : call push 0 st (s ++ t) = .item c j 0 := by rw [call_append, hcall]
      have hne' : ¬(st = 0 ∧ (s ++ t).head? = some 0) := by
        cases s with
        | nil => cases hcall
        | cons b s => exact hne
      have hdrop : (s ++ t).drop j = s.drop j ++ t := List.drop_append_of_le_length hle
      rw [h] at hshort ⊢
      rw [calls_char hst hst' hcall' hne', hdrop]
      congr 1
      exact ih (Or.inl rfl) (hdrop ▸ forall_drop hst' j) hshort

/-- **After `a` characters** the calls go on where these end. -/
theorem calls_add (a b : ℕ) : ∀ {st : ℕ} {s : List ℕ}, Between st → (∀ b ∈ s, b < 256) → calls (a + b) st s =
    if (calls a st s).ended = .full then
      (calls b (calls a st s).st (s.drop (calls a st s).used)).behind (calls a st s).wcs (calls a st s).used
    else calls a st s := by
  induction a with
  | zero =>
    intro st s _ _
    rw [Nat.zero_add]
    simp [calls]
  | succ a ih =>
    intro st s hst hs
    rw [Nat.add_right_comm]
    cases first_call hst hs with
    | short x _ h => simp [h]
    | bad _ h => simp [h]
    | nul _ _ h => simp [h]
    | char c j _ _ _ _ h =>
      rw [h, h, ih (Or.inl rfl) (forall_drop hs j), Calls.cons_ended]
      split_ifs
      · simp [Calls.cons, Calls.behind, List.drop_drop, Nat.add_assoc]
      · rfl

/-- **Where the bytes end** the calls go on, with the state that they had before the character that is cut. -/
theorem calls_resume (wn : ℕ) : ∀ {st : ℕ} {s t : List ℕ}, Between st → (∀ b ∈ s ++ t, b < 256) →
    (calls wn st s).ended = .short → calls wn st (s ++ t) =
      (calls (wn - (calls wn st s).wcs.length) (if (calls wn st s).used = 0 then st else 0)
        ((s ++ t).drop (calls wn st s).used)).behind (calls wn st s).wcs (calls wn st s).used := by
  induction wn with
  | zero => exact fun _ _ h => by cases h
  | succ wn ih =>
    intro st s t hst hst' hshort
    have hs := (List.forall_mem_append.mp hst').1
    cases first_call hst hs with
    | short x _ h => simp [h]
    | bad _ h => simp [h] at hshort
    | nul _ _ h => simp [h] at hshort
    | char c j hcall hne hj hle h =>
      have hcall' : call push 0 st (s ++ t) = .item c j 0 := by rw [call_append, hcall]
      have hne' : ¬(st = 0 ∧ (s ++ t).head? = some 0) := by
        cases s with
        | nil => cases hcall
        | cons b s => exact hne
      have hdrop : (s ++ t).drop j = s.drop j ++ t := List.drop_append_of_le_length hle
      rw [h] at hshort ⊢
      have hrest := ih (Or.inl rfl) (hdrop ▸ forall_drop hst' j) hshort
      rw [ite_self] at hrest
      rw [calls_char hst hst' hcall' hne', hdrop, hrest, ← hdrop, List.drop_drop]
      simp [Calls.cons, Calls.behind, Nat.add_assoc, hj.ne']

/-- A bound that the bytes do not reach does not matter. -/
theorem calls_unbounded (a : ℕ) : ∀ {b st : ℕ} {s : List ℕ}, Between st → (∀ b ∈ s, b < 256) →
    s.length < a → s.length < b → calls a st s = calls b st s := by
  induction a with
  | zero => exact fun _ _ h => absurd h (Nat.not_lt_zero _)
  | succ a ih =>
    intro b st s hst hs ha hb
    obtain ⟨b, rfl⟩ := Nat.exists_eq_succ_of_ne_zero (Nat.ne_zero_of_lt hb)
    cases first_call hst hs with
    | short x _ h => rw [h, h]
    | bad _ h => rw [h, h]
    | nul _ _ h => rw [h, h]
    | char c j _ _ hj hle h =>
      have hlen := List.length_drop (i := j) (l := s)
      rw [h, h, ih (b := b) (Or.inl rfl) (forall_drop hs j) (by omega) (by omega)]

/-! ### What the calls come to -/

/-- The characters take bytes that are there, and there are no more of them than asked for. -/
theorem calls_counts (wn : ℕ) : ∀ {st : ℕ} {s : List ℕ}, Between st → (∀ b ∈ s, b < 256) →
    (calls wn st s).used ≤ s.length ∧ (calls wn st s).wcs.length ≤ (calls wn st s).used ∧
      (calls wn st s).wcs.length ≤ wn ∧ ((calls wn st s).ended = .full → (calls wn st s).wcs.length = wn) := by
  induction wn with
  | zero => exact fun _ _ => by simp [calls]
  | succ wn ih =>
    intro st s hst hs
    cases first_call hst hs with
    | short x _ h => simp [h]
    | bad _ h => simp [h]
    | nul _ _ h => simp [h]
    | char c j _ _ hj hle h =>
      obtain ⟨hused, hwcs, hwn, hfull⟩ := ih (Or.inl rfl) (forall_drop hs j)
      rw [List.length_drop] at hused
      rw [h]
      simp only [Calls.cons, List.length_cons]
      exact ⟨by omega, by omega, by omega, fun hend => by rw [hfull hend]⟩

/-- The state that the calls leave. -/
theorem calls_st (wn : ℕ) : ∀ {st : ℕ} {s : List ℕ}, Between st → (∀ b ∈ s, b < 256) →
    Between (calls wn st s).st ∧
      ((calls wn st s).ended ≠ .short ∨ (calls wn st s).used = s.length →
        (calls wn st s).st = if (calls wn st s).wcs = [] ∧ ((calls wn st s).ended = .full ∨
          (calls wn st s).ended = .short) then st else 0) := by
  induction wn with
  | zero => exact fun hst _ => by simp [calls, hst]
  | succ wn ih =>
    intro st s hst hs
    cases first_call hst hs with
    | short x hcall h =>
      rw [h]
      rcases inside_of_call hst hs hcall with ⟨hnil, rfl⟩ | hin
      · simp [hst]
      · refine ⟨Or.inr hin, fun hor => ?_⟩
        have hs0 : s = [] := by
          rcases hor with hne | hlen
          · exact absurd rfl hne
          · exact List.length_eq_zero_iff.mp hlen.symm
        subst hs0
        injection hcall with hx
        simp [hx]
    | bad _ h => simp [h, Between]
    | nul _ _ h => simp [h, Between]
    | char c j _ _ _ hle h =>
      obtain ⟨hbetween, hst'⟩ := ih (Or.inl rfl) (forall_drop hs j)
      rw [h]
      refine ⟨hbetween, fun hor => ?_⟩
      rw [ite_self] at hst'
      have hor' : (calls wn 0 (s.drop j)).ended ≠ .short ∨ (calls wn 0 (s.drop j)).used = (s.drop j).length := by
        refine hor.imp_right fun hlen => ?_
        rw [List.length_drop]
        simp only [Calls.cons] at hlen
        omega
      simpa [Calls.cons] using hst' hor'

end OrbisCompat.Wchar.Restart
