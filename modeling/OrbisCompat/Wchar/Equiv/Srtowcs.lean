import OrbisCompat.Wchar.Equiv.Restart

/-!
# When `mbsrtowcs` is `mbrtowc` over and over

It is, in a string that ends with a NUL, when it counts, and when it is entered with the initial state.  Entered with a
state that holds bytes it stores the same characters when there is room for one, and the string goes on with the
bytes that are missing; otherwise it stores more than there is room for, or leaves `*src` in front of the string
(`mbsrtowcs_iff`, `src_within_iff`).
-/

namespace OrbisCompat.Wchar.Restart

open Chunked Utf8

variable {c j k st wn : ℕ} {mem p s : List ℕ} {o : Option ℕ}

/-! ### Terminated strings -/

/-- A NUL continues no character. -/
theorem push_zero (h : Inside c) : push c 0 = .bad :=
  push_oob h fun hoob => absurd (h.trail (by norm_num) hoob) (by decide)

/-- Inside a character, a NUL is not read over. -/
theorem not_mem_take_of_item (hst : Between st) (hs : ∀ b ∈ s, b < 256) {x : ℕ} (h : call push 0 st s = .item c j x)
    (hne : ¬(st = 0 ∧ s.head? = some 0)) : 0 ∉ s.take j := by
  induction s generalizing st j with
  | nil => cases h
  | cons b s ih =>
    rw [List.forall_mem_cons] at hs
    obtain ⟨hb, hs⟩ := hs
    have hb0 : b ≠ 0 := by
      rintro rfl
      rcases hst with rfl | hin
      · exact hne ⟨rfl, rfl⟩
      · rw [call_cons_bad (push_zero hin)] at h
        cases h
    cases hpush : push st b with
    | item c' =>
      rw [call_cons_item hpush] at h
      cases h
      simp [hb0.symm]
    | bad =>
      rw [call_cons_bad hpush] at h
      cases h
    | more st' =>
      have hst' := hst.push hb hpush
      have hne' : st' ≠ 0 := by
        have hone : call push 0 st [b] = .more st' := call_cons_more hpush []
        rcases inside_of_call hst (by simpa using hb) hone with ⟨hnil, -⟩ | hin
        · cases hnil
        · exact hin.ne_zero
      rw [call_cons_more hpush] at h
      cases hcall : call push 0 st' s with
      | item c' j' x' =>
        rw [hcall] at h
        cases h
        rw [List.take_succ_cons, List.mem_cons, not_or]
        exact ⟨hb0.symm, ih hst' hs hcall fun h => hne' h.1⟩
      | more x' =>
        rw [hcall] at h
        cases h
      | bad x' =>
        rw [hcall] at h
        cases h

theorem not_more_of_mem (hst : Between st) (hs : ∀ b ∈ s, b < 256) (hzero : 0 ∈ s) (x : ℕ) :
    call push 0 st s ≠ .more x := by
  induction s generalizing st x with
  | nil => cases hzero
  | cons b s ih =>
    rw [List.forall_mem_cons] at hs
    obtain ⟨hb, hs⟩ := hs
    cases hpush : push st b with
    | item c =>
      rw [call_cons_item hpush]
      simp
    | bad =>
      rw [call_cons_bad hpush]
      simp
    | more st' =>
      have hb0 : b ≠ 0 := by
        rintro rfl
        rcases hst with rfl | hin
        · cases hpush
        · rw [push_zero hin] at hpush
          cases hpush
      have hzero' : 0 ∈ s := (List.mem_cons.mp hzero).resolve_left hb0.symm
      rw [call_cons_more hpush]
      intro h
      cases hcall : call push 0 st' s with
      | item c j x' =>
        rw [hcall] at h
        cases h
      | bad x' =>
        rw [hcall] at h
        cases h
      | more x' => exact ih (hst.push hb hpush) hs hzero' x' hcall

/-- **The terminator** is reached, and not passed. -/
theorem calls_terminated (hst : Between st) (hs : ∀ b ∈ s, b < 256) (hzero : 0 ∈ s) (wn : ℕ) :
    (calls wn st s).ended ≠ .short ∧ 0 ∈ s.drop (calls wn st s).used := by
  induction wn generalizing st s with
  | zero => exact ⟨by simp [calls], hzero⟩
  | succ wn ih =>
    cases hcall : call push 0 st s with
    | more x => exact absurd hcall (not_more_of_mem hst hs hzero x)
    | bad x =>
      rw [calls_bad hst hs hcall]
      exact ⟨by simp, hzero⟩
    | item c j x =>
      by_cases hnul : st = 0 ∧ s.head? = some 0
      · obtain ⟨rfl, hhead⟩ := hnul
        obtain ⟨rest, rfl⟩ := List.head?_eq_some_iff.mp hhead
        rw [calls_nul]
        exact ⟨by simp, hzero⟩
      · have hleft : 0 ∈ s.drop j := by
          rw [← List.take_append_drop j s, List.mem_append] at hzero
          exact hzero.resolve_left (not_mem_take_of_item hst hs hcall hnul)
        obtain ⟨hshort, hmem⟩ := ih (Or.inl rfl) (fun b hb => hs b (List.mem_of_mem_drop hb)) hleft
        rw [calls_char hst hs hcall hnul]
        refine ⟨hshort, ?_⟩
        rwa [List.drop_drop] at hmem

/-- There is room for the terminator. -/
theorem length_stored_le (wn : ℕ) : ∀ (st : ℕ) (s : List ℕ), (calls wn st s).stored.length ≤ wn := by
  induction wn with
  | zero => exact fun _ _ => Nat.le_refl 0
  | succ wn ih =>
    intro st s
    rw [calls]
    split_ifs
    · exact Nat.zero_le _
    · exact Nat.zero_le _
    · exact Nat.succ_le_succ (Nat.zero_le _)
    · have hrest := ih (Wchar.mbrtowc (some s) s.length st).st (s.drop (Wchar.mbrtowc (some s) s.length st).ret.toNat)
      unfold Calls.stored at hrest ⊢
      rw [Calls.cons_ended]
      split_ifs at hrest ⊢ <;> simp [Calls.cons] at hrest ⊢ <;> exact hrest

/-! ### A state that holds bytes -/

/-- The string, and its terminator, completes what the state holds, or the first call of `mbrtowc` fails. -/
theorem resumed_cases (hp : Holds p st) (hne : p ≠ []) (hs : IsBytes s) :
    (Completed p s ∧ ∃ c j, call push 0 st (s ++ [0]) = .item c j 0) ∨
      ¬Completed p s ∧ ∃ x, call push 0 st (s ++ [0]) = .bad x := by
  have hin : Inside st := hp.between.resolve_left (mt hp.eq_zero_iff.mp hne)
  have hbytes : ∀ b ∈ s, b < 256 := fun b hb => (hs b hb).2
  rw [completed_iff hp hbytes, call_append]
  cases hcall : call push 0 st s with
  | item c j x =>
    obtain rfl := (call_item hcall).2.2
    exact Or.inl ⟨⟨c, j, rfl⟩, c, j, rfl⟩
  | bad x => exact Or.inr ⟨by simp, x, rfl⟩
  | more st' =>
    have hin' : Inside st' := by
      rcases inside_of_call (Or.inr hin) hbytes hcall with ⟨-, rfl⟩ | h
      · exact hin
      · exact h
    refine Or.inr ⟨by simp, 0, ?_⟩
    dsimp only
    rw [call_cons_bad (push_zero hin')]
    rfl

/-! ### What `mbsrtowcs` is for -/

/-- `mbsrtowcs` of a string is `mbrtowc` over and over, from the state in `o` or else the initial one.  With a destination
this goes for what it stores, for what it returns and for `*src`, and there is room for what it stores.  Without, it
returns what a conversion would return that nothing bounds. -/
def AsCalls (null : Bool) (s : List ℕ) (wn : ℕ) (o : Option ℕ) : Prop :=
  ∃ r, mbsrtowcs null (s ++ [0]) 0 wn o = some r ∧
    if null then ∀ W, (s ++ [0]).length < W → r.ret = (calls W (o.getD 0) (s ++ [0])).ret
    else r.ws.length ≤ wn ∧ r.ret = (calls wn (o.getD 0) (s ++ [0])).ret ∧
      r.ws = (calls wn (o.getD 0) (s ++ [0])).stored ∧ r.src = (calls wn (o.getD 0) (s ++ [0])).src

theorem terminated_bytes (hs : IsBytes s) : ∀ b ∈ s ++ [0], b < 256 := by
  simpa [or_imp, forall_and] using fun b hb => (hs b hb).2

/-- Nothing is taken back of what is stored. -/
theorem finish_ws {src i : ℤ} {wn0 : ℕ} {ws : List ℕ} {r : Srtowcs}
    (h : finish false mem src o wn0 wn ws c i = some r) : ws.length ≤ r.ws.length := by
  unfold finish at h
  rw [Option.bind_eq_some_iff] at h
  obtain ⟨terminated, -, h⟩ := h
  split_ifs at h
  all_goals
    injection h with h
    simp [← h]

theorem storeLoop_ws {src : ℤ} {wn0 : ℕ} {r : Srtowcs} (wn : ℕ) : ∀ (i : ℤ) (ws : List ℕ),
    storeLoop mem src o wn0 wn i ws = some r → ws.length ≤ r.ws.length := by
  induction wn with
  | zero =>
    intro i ws h
    injection h with h
    simp [← h]
  | succ wn ih =>
    intro i ws h
    unfold storeLoop at h
    rw [Option.bind_eq_bind, Option.bind_eq_some_iff] at h
    obtain ⟨t, -, h⟩ := h
    cases t with
    | char c i' =>
      have hle := ih _ _ h
      rw [List.length_append] at hle
      exact Nat.le_of_add_right_le hle
    | stop c i' => exact finish_ws h

/-- Without room, a character that the string completes is stored all the same. -/
theorem length_pos_of_resume {r : Srtowcs} (hp : Holds p (o.getD 0)) (hs : IsBytes s) (hne : p ≠ [])
    (hcompleted : Completed p s) (h : mbsrtowcs false (s ++ [0]) 0 wn o = some r) : 0 < r.ws.length := by
  have hmem := terminated_bytes hs
  have hzero : o.getD 0 ≠ 0 := mt hp.eq_zero_iff.mp hne
  have hin : Inside (o.getD 0) := hp.between.resolve_left hzero
  have hanswers := resume_answers hmem hin (k := 0) List.drop_zero
  rcases resumed_cases hp hne hs with ⟨-, c, j, hcall⟩ | ⟨hnot, -⟩
  · unfold mbsrtowcs at h
    dsimp only at h
    rw [if_pos hzero, if_pos Bool.false_ne_true] at h
    rw [hcall] at hanswers
    rw [Nat.cast_zero] at hanswers
    generalize resume (s ++ [0]) (o.getD 0) 0 = t at hanswers h
    cases hanswers with
    | @item c c' j _ =>
      rw [Option.bind_eq_bind, Option.bind_some] at h
      exact storeLoop_ws (Word64.sub wn 1) _ [c'] h
  · exact absurd hcompleted hnot

section

variable (hp : Holds p (o.getD 0)) (hs : IsBytes s) (hwn : wn < 2 ^ 64)
include hp hs hwn

/-- Counting is right from every state. -/
theorem asCalls_null (hlen : s.length < 2 ^ 64) : AsCalls true s wn o := by
  have hmem := terminated_bytes hs
  have hend := fun W => (calls_terminated hp.between hmem (by simp) W).1
  have hcount : ∀ W, (s ++ [0]).length < W → mbsrtowcs true (s ++ [0]) 0 wn o =
      some ((calls W (o.getD 0) (s ++ [0])).counted 0 0 o) := by
    intro W hW
    have hroom : (s ++ [0]).length ≤ 2 ^ 64 + 0 := by
      rw [List.length_append, List.length_singleton]
      omega
    exact mbsrtowcs_count (k := 0) hmem hp.between hwn (Nat.zero_le _) hroom (by omega) (hend W)
  refine ⟨_, hcount _ (Nat.lt_succ_self _), ?_⟩
  intro W hW
  have heq := (hcount _ (Nat.lt_succ_self _)).symm.trans (hcount W hW)
  simp only [Option.some.injEq, Calls.counted, Srtowcs.mk.injEq] at heq ⊢
  simpa using heq.1

/-- What the function does with a destination when it does what it should. -/
theorem mbsrtowcs_calls (hfirst : p = [] ∨ wn ≠ 0 ∧ Completed p s) :
    mbsrtowcs false (s ++ [0]) 0 wn o =
      some ((calls wn (o.getD 0) (s ++ [0])).srtowcs 0 (o.map fun _ => 0)) := by
  have hmem := terminated_bytes hs
  have hend := (calls_terminated hp.between hmem (by simp) wn).1
  refine mbsrtowcs_store (k := 0) hmem hp.between hwn hend ?_
  rcases hfirst with rfl | ⟨hpos, hcompleted⟩
  · exact Or.inl (hp.eq_zero_iff.mpr rfl)
  by_cases hne : p = []
  · exact Or.inl (hp.eq_zero_iff.mpr hne)
  refine Or.inr ?_
  rcases resumed_cases hp hne hs with ⟨-, c, j, hcall⟩ | ⟨hnot, -⟩
  · have hzero : o.getD 0 ≠ 0 := mt hp.eq_zero_iff.mp hne
    obtain ⟨wn, rfl⟩ := Nat.exists_eq_succ_of_ne_zero hpos
    rw [List.drop_zero, calls_char hp.between hmem hcall fun h => hzero h.1]
    simp [Calls.cons]
  · exact absurd hcompleted hnot

/-- **When `mbsrtowcs` is `mbrtowc` over and over**: always when it counts and when it starts with the initial state, and else
if there is room for a character, and the string completes the one that the state holds a part of. -/
theorem mbsrtowcs_iff (hlen : s.length < 2 ^ 64) (null : Bool) :
    AsCalls null s wn o ↔ null = true ∨ p = [] ∨ wn ≠ 0 ∧ Completed p s := by
  cases null with
  | true => exact iff_of_true (asCalls_null hp hs hwn hlen) (Or.inl rfl)
  | false =>
    rw [or_iff_right Bool.false_ne_true]
    constructor
    · rintro ⟨r, hr, hlength, hret, -, hsrc⟩
      by_contra hnot
      rw [not_or] at hnot
      obtain ⟨hne, hnot⟩ := hnot
      rcases resumed_cases hp hne hs with ⟨hcompleted, -⟩ | ⟨-, x, hcall⟩
      · -- a character is stored, and there was no room for it
        have hwn0 : wn = 0 := by
          by_contra hpos
          exact hnot ⟨hpos, hcompleted⟩
        have hpos := length_pos_of_resume hp hs hne hcompleted hr
        omega
      · -- `*src` is left in front of the string
        obtain ⟨y, rfl⟩ : ∃ y, o = some y := by
          cases o with
          | none => exact absurd (hp.eq_zero_iff.mp rfl) hne
          | some y => exact ⟨y, rfl⟩
        have hin : Inside y := hp.between.resolve_left (mt hp.eq_zero_iff.mp hne)
        have hmem := terminated_bytes hs
        have hbad : mbsrtowcs false (s ++ [0]) 0 wn (some y) = _ := mbsrtowcs_resume_bad (k := 0) hmem hin hcall
        rw [hr, Option.some.injEq] at hbad
        rw [hbad] at hsrc
        unfold Calls.src at hsrc
        split_ifs at hsrc
        simp only [Option.some.injEq] at hsrc
        omega
    · intro hfirst
      refine ⟨_, mbsrtowcs_calls hp hs hwn hfirst, ?_, rfl, rfl, ?_⟩
      · exact length_stored_le _ _ _
      · simp [Calls.srtowcs, Calls.src]

end

/-- The euro sign, of which `mbrtowc` has read the first byte, and room for one character. -/
theorem mbsrtowcs_iff_euro : AsCalls false [0x82, 0xAC, 0x41] 1 (some 0xC3000002) ↔
    false = true ∨ [0xE2] = [] ∨ 1 ≠ 0 ∧ Completed [0xE2] [0x82, 0xAC, 0x41] :=
  mbsrtowcs_iff (p := [0xE2]) (by decide +kernel) (by unfold IsBytes; decide) (by norm_num) (by simp) false

/-- Without room it is stored, and so is the rest of the string. -/
theorem asCalls_without_room : ¬∀ (null : Bool) (p s : List ℕ) (wn : ℕ) (o : Option ℕ), Holds p (o.getD 0) → IsBytes s →
    s.length < 2 ^ 64 → wn < 2 ^ 64 → AsCalls null s wn o := by
  intro h
  obtain ⟨r, hr, hlength, -⟩ := h false [0xE2] [0x82, 0xAC, 0x41] 0 (some 0xC3000002) (by decide +kernel)
    (by unfold IsBytes; decide) (by simp) (by norm_num)
  have hrun : mbsrtowcs false [0x82, 0xAC, 0x41, 0] 0 0 (some 0xC3000002) =
      some { ret := some 2, ws := [0x20AC, 0x41, 0], src := none, st := some 0 } := by decide +kernel
  have heq := hr.symm.trans hrun
  rw [Option.some.injEq] at heq
  rw [heq] at hlength
  exact absurd hlength (by decide)

/-! ### Where `*src` is left -/

/-- `*src` is left at `NULL`, or in the string, of which the terminator is a part. -/
def SrcWithin (s : List ℕ) (wn : ℕ) (o : Option ℕ) : Prop :=
  ∃ r, mbsrtowcs false (s ++ [0]) 0 wn o = some r ∧ ∀ i, r.src = some i → 0 ≤ i ∧ i ≤ s.length

/-- **When `*src` stays in the string**, if there is room for a character. -/
theorem srcWithin_iff (hp : Holds p (o.getD 0)) (hs : IsBytes s) (hwn : wn < 2 ^ 64) (hpos : 1 ≤ wn) :
    SrcWithin s wn o ↔ p = [] ∨ Completed p s := by
  have hmem := terminated_bytes hs
  constructor
  · rintro ⟨r, hr, hsrc⟩
    by_contra hnot
    rw [not_or] at hnot
    obtain ⟨hne, hnot⟩ := hnot
    obtain ⟨x, hcall⟩ := ((resumed_cases hp hne hs).resolve_left fun h => hnot h.1).2
    obtain ⟨y, rfl⟩ : ∃ y, o = some y := by
      cases o with
      | none => exact absurd (hp.eq_zero_iff.mp rfl) hne
      | some y => exact ⟨y, rfl⟩
    have hin : Inside y := hp.between.resolve_left (mt hp.eq_zero_iff.mp hne)
    have hbad : mbsrtowcs false (s ++ [0]) 0 wn (some y) = _ := mbsrtowcs_resume_bad (k := 0) hmem hin hcall
    rw [hr, Option.some.injEq] at hbad
    have hback := (hsrc (-1) (by rw [hbad]; rfl)).1
    omega
  · intro hfirst
    have hpos : wn ≠ 0 := by omega
    refine ⟨_, mbsrtowcs_calls hp hs hwn (hfirst.imp_right fun h => ⟨hpos, h⟩), ?_⟩
    intro i hi
    -- the terminator is still in front
    have hleft := (calls_terminated hp.between hmem (by simp) wn).2
    have hlt := List.length_pos_of_mem hleft
    rw [List.length_drop, List.length_append, List.length_singleton] at hlt
    dsimp only [Calls.srtowcs, Calls.src] at hi
    split_ifs at hi with hnul
    · cases hi
    · simp only [Option.map_some, Option.some.injEq] at hi
      omega

/-- The same character again, and the string completes it. -/
theorem srcWithin_iff_euro : SrcWithin [0x82, 0xAC, 0x41] 1 (some 0xC3000002) ↔
    [0xE2] = [] ∨ Completed [0xE2] [0x82, 0xAC, 0x41] :=
  srcWithin_iff (p := [0xE2]) (by decide +kernel) (by unfold IsBytes; decide) (by norm_num) le_rfl

/-- A string that goes on with something else. -/
theorem src_before_string : ¬∀ (p s : List ℕ) (wn : ℕ) (o : Option ℕ), Holds p (o.getD 0) → IsBytes s →
    wn < 2 ^ 64 → 1 ≤ wn → SrcWithin s wn o := by
  intro h
  obtain ⟨r, hr, hsrc⟩ := h [0xE2] [0x41] 4 (some 0xC3000002) (by decide +kernel) (by unfold IsBytes; decide)
    (by norm_num) (by norm_num)
  have hrun : mbsrtowcs false [0x41, 0] 0 4 (some 0xC3000002) =
      some { ret := none, errno := some .EILSEQ, src := some (-1), st := some 0 } := by decide +kernel
  have heq := hr.symm.trans hrun
  rw [Option.some.injEq] at heq
  have hback := (hsrc (-1) (by rw [heq])).1
  omega

end OrbisCompat.Wchar.Restart
