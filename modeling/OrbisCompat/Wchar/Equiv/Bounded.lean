import OrbisCompat.Wchar.Bounded
import OrbisCompat.Wchar.Equiv.Utf8

/-!
# `wcsnrtombs` and `wcsrtombs`

The fast loop of `wcsrtombs` does what the other one does (`bytesLoop_eq_tailLoop`), and that one and the loop of
`wcsnrtombs` agree character by character.  They part at one place: `wcsrtombs` stops when there is no room left, and
`wcsnrtombs` only when the next character does not fit, which it encodes first.  So an invalid character right behind a
full buffer is an error for one of them, and is not looked at by the other (`bounded_agrees_iff`).
-/

namespace OrbisCompat.Wchar

open Utf8

variable {null : Bool} {c n wn : ℕ} {cs s src ws : List ℕ}

/-! ### Single characters -/

theorem wcrtomb_eq_none (hc : c < 2 ^ 32) (h : ¬IsScalar c) : wcrtomb c = none := by
  unfold IsScalar at h
  unfold wcrtomb Word32.sub
  rw [if_neg (by omega), if_neg (by omega), if_neg (by omega), if_neg (by omega)]

theorem length_encode_le (c : ℕ) : (encode c).length ≤ 4 := by
  unfold encode
  split_ifs <;> simp

/-- What a loop tests for is not one byte long. -/
theorem encode_of_narrow (hc : c < 2 ^ 32) (h : ¬Word32.sub c 1 ≥ 0x7f) : c ≠ 0 ∧ IsScalar c ∧ encode c = [c] := by
  have hlow : 0 < c ∧ c < 0x80 := by
    unfold Word32.sub at h
    omega
  exact ⟨hlow.1.ne', Or.inl (by omega), encode_one hlow.2⟩

/-! ### The loops of `wcsrtombs` -/

/-- One character of the slow loop, which is not the terminator. -/
theorem tailLoop_cons (N : ℕ) (hc : c ≠ 0 ∧ c < 2 ^ 32) (hn : n ≠ 0) : tailLoop N (c :: ws) n s =
    if IsScalar c then
      if (encode c).length > n then { ret := some (N - n), s, ws := some (c :: ws) }
      else tailLoop N ws (n - (encode c).length) (s ++ encode c)
    else { ret := none, errno := some .EILSEQ, s, ws := some (c :: ws) } := by
  rw [tailLoop, if_neg hn]
  by_cases hwide : Word32.sub c 1 ≥ 0x7f
  · rw [if_pos hwide, if_neg hc.1]
    by_cases hscalar : IsScalar c
    · rw [wcrtomb_scalar hscalar, if_pos hscalar]
    · rw [wcrtomb_eq_none hc.2 hscalar, if_neg hscalar]
  · obtain ⟨-, hscalar, hone⟩ := encode_of_narrow hc.2 hwide
    rw [if_neg hwide, if_pos hscalar, hone, List.length_singleton, if_neg (by omega)]

/-- **The fast loop** is the slow one, for which there always is room. -/
theorem bytesLoop_eq_tailLoop (N : ℕ) (hws : ∀ c ∈ ws, c ≠ 0 ∧ c < 2 ^ 32) : bytesLoop N ws n s = tailLoop N ws n s := by
  induction ws generalizing n s with
  | nil =>
    unfold bytesLoop
    split_ifs with hn
    · rfl
    · rw [tailLoop, if_neg (by omega)]
  | cons c ws ih =>
    rw [List.forall_mem_cons] at hws
    obtain ⟨hc, hws⟩ := hws
    unfold bytesLoop
    by_cases hn : n < 4
    · rw [if_pos hn]
    rw [if_neg hn, tailLoop_cons N hc (by omega)]
    by_cases hwide : Word32.sub c 1 ≥ 0x7f
    · rw [if_pos hwide, if_neg hc.1]
      by_cases hscalar : IsScalar c
      · have hlen := length_encode_le c
        rw [wcrtomb_scalar hscalar, if_pos hscalar, if_neg (by omega)]
        exact ih hws
      · rw [wcrtomb_eq_none hc.2 hscalar, if_neg hscalar]
    · obtain ⟨-, hscalar, hone⟩ := encode_of_narrow hc.2 hwide
      rw [if_neg hwide, if_pos hscalar, hone, List.length_singleton, if_neg (by omega), ih hws]

/-! ### The loop of `wcsnrtombs` -/

/-- An invalid character behind as many valid ones as fill `n` bytes. -/
def FillsBeforeInvalid (n : ℕ) (ws : List ℕ) : Prop :=
  ∃ cs c rest, ws = cs ++ c :: rest ∧ (∀ d ∈ cs, IsScalar d) ∧ (cs.flatMap encode).length = n ∧ ¬IsScalar c

theorem fillsBeforeInvalid_cons : FillsBeforeInvalid n (c :: ws) ↔
    if IsScalar c then (encode c).length ≤ n ∧ FillsBeforeInvalid (n - (encode c).length) ws else n = 0 := by
  split_ifs with hscalar
  · constructor
    · rintro ⟨cs, d, rest, heq, hcs, hlen, hd⟩
      cases cs with
      | nil =>
        cases heq
        exact absurd hscalar hd
      | cons e cs =>
        cases heq
        rw [List.flatMap_cons, List.length_append] at hlen
        exact ⟨by omega, cs, d, rest, rfl, fun d hd => hcs d (List.mem_cons_of_mem _ hd), by omega, hd⟩
    · rintro ⟨hle, cs, d, rest, rfl, hcs, hlen, hd⟩
      refine ⟨c :: cs, d, rest, rfl, List.forall_mem_cons.mpr ⟨hscalar, hcs⟩, ?_, hd⟩
      rw [List.flatMap_cons, List.length_append]
      omega
  · constructor
    · rintro ⟨cs, d, rest, heq, hcs, hlen, hd⟩
      cases cs with
      | nil => exact hlen.symm
      | cons e cs =>
        cases heq
        exact absurd (hcs _ List.mem_cons_self) hscalar
    · rintro rfl
      exact ⟨[], c, ws, rfl, by simp, rfl, hscalar⟩

/-- One character, which is not the terminator. -/
theorem boundedLoop_cons {cnt : ℕ} (hc : c ≠ 0 ∧ c < 2 ^ 32) : boundedLoop false src (wn + 1) (c :: ws) n s cnt =
    if IsScalar c then
      if (encode c).length > n then { ret := some cnt, s, ws := some (c :: ws) }
      else boundedLoop false src wn ws (n - (encode c).length) (s ++ encode c) (cnt + (encode c).length)
    else { ret := none, errno := some .EILSEQ, s, ws := some (c :: ws) } := by
  rw [boundedLoop, List.headD_cons]
  by_cases hscalar : IsScalar c
  · have hlen := length_encode_le c
    have htest : (¬false = true ∧ n < W32_MB_LEN_MAX ∧ (encode c).length > n) ↔ (encode c).length > n := by
      unfold W32_MB_LEN_MAX
      simp
      omega
    rw [wcrtomb_scalar hscalar, if_pos hscalar]
    exact if_congr htest rfl (if_neg hc.1)
  · rw [wcrtomb_eq_none hc.2 hscalar, if_neg hscalar]
    rfl

/-- The terminator. -/
theorem boundedLoop_nil {cnt : ℕ} : boundedLoop false src (wn + 1) [] n s cnt =
    if n = 0 then { ret := some cnt, s, ws := some [] } else { ret := some cnt, s := s ++ [0], ws := none } := by
  have hzero : wcrtomb (([] : List ℕ).headD 0) = some [0] := rfl
  unfold boundedLoop W32_MB_LEN_MAX
  rw [hzero]
  by_cases hn : n = 0
  · simp [hn]
  · simp [hn]

/-- **The two loops agree**, but for such a character. -/
theorem boundedLoop_eq_tailLoop {N cnt : ℕ} (hws : ∀ c ∈ ws, c ≠ 0 ∧ c < 2 ^ 32) (hwn : ws.length < wn) (hN : N = cnt + n)
    (h : ¬FillsBeforeInvalid n ws) : boundedLoop false src wn ws n s cnt = tailLoop N ws n s := by
  induction ws generalizing wn n s cnt with
  | nil =>
    obtain ⟨wn, rfl⟩ := Nat.exists_eq_add_one_of_ne_zero (Nat.ne_zero_of_lt hwn)
    have hcnt : N - n = cnt := by omega
    rw [boundedLoop_nil, tailLoop, hcnt]
    split_ifs with hn
    · rw [hN, hn, Nat.add_zero]
    · rfl
  | cons c ws ih =>
    obtain ⟨wn, rfl⟩ := Nat.exists_eq_add_one_of_ne_zero (Nat.ne_zero_of_lt hwn)
    rw [List.forall_mem_cons] at hws
    obtain ⟨hc, hws⟩ := hws
    rw [fillsBeforeInvalid_cons] at h
    rw [boundedLoop_cons hc]
    by_cases hn : n = 0
    · -- `wcsrtombs` does not look at the character
      have hscalar : IsScalar c := by
        by_contra hscalar
        rw [if_neg hscalar] at h
        exact h hn
      have hpos := length_encode_pos c
      rw [if_pos hscalar, if_pos (by omega), tailLoop, if_pos hn, hN, hn, Nat.add_zero]
    have hcnt : N - n = cnt := by omega
    rw [tailLoop_cons N hc hn, hcnt]
    by_cases hscalar : IsScalar c
    · rw [if_pos hscalar] at h ⊢
      rw [if_pos hscalar]
      by_cases hfits : (encode c).length > n
      · rw [if_pos hfits, if_pos hfits]
      · rw [if_neg hfits, if_neg hfits]
        exact ih hws (Nat.lt_of_succ_lt_succ hwn) (by omega) fun h' => h ⟨Nat.not_lt.mp hfits, h'⟩
    · rw [if_neg hscalar, if_neg hscalar]

/-- **Such a character** is an error for `wcsnrtombs`, and is not looked at by `wcsrtombs`. -/
theorem loops_of_invalid {N cnt : ℕ} {rest : List ℕ} (hcs : ∀ d ∈ cs, d ≠ 0 ∧ IsScalar d) (hc : c ≠ 0 ∧ c < 2 ^ 32)
    (hinvalid : ¬IsScalar c) (hwn : cs.length < wn) :
    boundedLoop false src wn (cs ++ c :: rest) (cs.flatMap encode).length s cnt =
        { ret := none, errno := some .EILSEQ, s := s ++ cs.flatMap encode, ws := some (c :: rest) } ∧
      tailLoop N (cs ++ c :: rest) (cs.flatMap encode).length s =
        { ret := some N, s := s ++ cs.flatMap encode, ws := some (c :: rest) } := by
  induction cs generalizing wn s cnt with
  | nil =>
    obtain ⟨wn, rfl⟩ := Nat.exists_eq_add_one_of_ne_zero (Nat.ne_zero_of_lt hwn)
    rw [List.nil_append, boundedLoop_cons hc, if_neg hinvalid, List.flatMap_nil, List.append_nil, tailLoop]
    exact ⟨rfl, rfl⟩
  | cons d cs ih =>
    obtain ⟨wn, rfl⟩ := Nat.exists_eq_add_one_of_ne_zero (Nat.ne_zero_of_lt hwn)
    rw [List.forall_mem_cons] at hcs
    obtain ⟨⟨hd, hscalar⟩, hcs⟩ := hcs
    have hd' : d ≠ 0 ∧ d < 2 ^ 32 := by
      unfold IsScalar at hscalar
      omega
    have hpos := length_encode_pos d
    have hlen : ((d :: cs).flatMap encode).length = (encode d).length + (cs.flatMap encode).length := by
      rw [List.flatMap_cons, List.length_append]
    have hleft : (encode d).length + (cs.flatMap encode).length - (encode d).length = (cs.flatMap encode).length :=
      Nat.add_sub_cancel_left _ _
    rw [hlen, List.cons_append, boundedLoop_cons hd', tailLoop_cons N hd' (by omega), if_pos hscalar, if_neg (by omega),
      if_pos hscalar, if_neg (by omega), hleft, List.flatMap_cons, ← List.append_assoc]
    exact ih hcs (Nat.lt_of_succ_lt_succ hwn)

/-! ### Without a destination -/

theorem boundedLoop_null {cnt : ℕ} (hws : ∀ c ∈ ws, c ≠ 0 ∧ c < 2 ^ 32) (hwn : ws.length < wn) :
    boundedLoop true src wn ws 0 [] cnt = lengthLoop src ws cnt := by
  induction ws generalizing wn cnt with
  | nil =>
    obtain ⟨wn, rfl⟩ := Nat.exists_eq_add_one_of_ne_zero (Nat.ne_zero_of_lt hwn)
    rfl
  | cons c ws ih =>
    obtain ⟨wn, rfl⟩ := Nat.exists_eq_add_one_of_ne_zero (Nat.ne_zero_of_lt hwn)
    rw [List.forall_mem_cons] at hws
    obtain ⟨hc, hws⟩ := hws
    have hrest : ∀ cnt, boundedLoop true src wn ws 0 [] cnt = lengthLoop src ws cnt :=
      fun _ => ih hws (Nat.lt_of_succ_lt_succ hwn)
    rw [boundedLoop, lengthLoop, List.headD_cons, if_neg hc.1]
    by_cases hascii : c ≥ 0x80
    · rw [if_pos hascii]
      cases hbs : wcrtomb c with
      | none => rfl
      | some bs => simpa [hc.1] using hrest _
    · have hone : wcrtomb c = some [c] := if_pos (Nat.not_le.mp hascii)
      rw [if_neg hascii, hone]
      simpa [hc.1] using hrest _

/-! ### What is stored -/

/-- Of `ws`, whole characters are stored in `n` bytes, and the terminator behind all of them if there is room for it as well. -/
def StoresWhole (ws : List ℕ) (n : ℕ) (r : ToBytes) : Prop :=
  ∃ cs rest, ws = cs ++ rest ∧ (∀ c ∈ cs, IsScalar c) ∧ r.s.length ≤ n ∧
    (r.s = cs.flatMap encode ∧ r.ws = some rest ∨ rest = [] ∧ r.s = cs.flatMap encode ++ [0] ∧ r.ws = none)

theorem tailLoop_stores {N m : ℕ} {out : List ℕ} (hws : ∀ c ∈ ws, c ≠ 0 ∧ c < 2 ^ 32) (hout : ∀ c ∈ out, IsScalar c)
    (hs : s = out.flatMap encode) (hn : s.length + n = m) :
    StoresWhole (out ++ ws) m (tailLoop N ws n s) := by
  have hle : s.length ≤ m := by omega
  induction ws generalizing n s out with
  | nil =>
    refine ⟨out, [], rfl, hout, ?_⟩
    rw [tailLoop]
    split_ifs with hzero
    · exact ⟨hle, Or.inl ⟨hs, rfl⟩⟩
    · refine ⟨?_, Or.inr ⟨rfl, by rw [hs], rfl⟩⟩
      rw [List.length_append, List.length_singleton]
      omega
  | cons c ws ih =>
    rw [List.forall_mem_cons] at hws
    obtain ⟨hc, hws⟩ := hws
    by_cases hzero : n = 0
    · rw [tailLoop, if_pos hzero]
      exact ⟨out, c :: ws, rfl, hout, hle, Or.inl ⟨hs, rfl⟩⟩
    rw [tailLoop_cons N hc hzero]
    split_ifs with hscalar hfits
    · exact ⟨out, c :: ws, rfl, hout, hle, Or.inl ⟨hs, rfl⟩⟩
    · rw [List.append_cons]
      refine ih hws ?_ ?_ ?_ ?_
      · simpa [or_imp, forall_and, hscalar] using hout
      · rw [hs, List.flatMap_append, List.flatMap_singleton]
      · rw [List.length_append]
        omega
      · rw [List.length_append]
        omega
    · exact ⟨out, c :: ws, rfl, hout, hle, Or.inl ⟨hs, rfl⟩⟩

/-- The two conversions agree, and store whole characters. -/
def Agree (null : Bool) (ws : List ℕ) (wn n : ℕ) : Prop :=
  wcsnrtombs null ws wn n = wcsrtombs null ws n ∧ StoresWhole ws n (wcsrtombs null ws n) ∧
    StoresWhole ws n (wcsnrtombs null ws wn n)

theorem lengthLoop_stores {cnt : ℕ} : (lengthLoop src ws cnt).s = [] ∧ (lengthLoop src ws cnt).ws = some src := by
  induction ws generalizing cnt with
  | nil => exact ⟨rfl, rfl⟩
  | cons c ws ih =>
    rw [lengthLoop]
    split_ifs
    · exact ⟨rfl, rfl⟩
    · cases wcrtomb c with
      | none => exact ⟨rfl, rfl⟩
      | some bs => exact ih
    · exact ih

section

variable (hws : ∀ c ∈ ws, c ≠ 0 ∧ c < 2 ^ 32) (hwn : ws.length < wn)

include hws

theorem wcsrtombs_eq_tailLoop (n : ℕ) : wcsrtombs false ws n = tailLoop n ws n [] := bytesLoop_eq_tailLoop n hws

include hwn

theorem wcsnrtombs_null (n : ℕ) : wcsnrtombs true ws wn n = wcsrtombs true ws n := boundedLoop_null hws hwn

theorem wcsnrtombs_eq (h : ¬FillsBeforeInvalid n ws) : wcsnrtombs false ws wn n = wcsrtombs false ws n := by
  rw [wcsrtombs_eq_tailLoop hws]
  exact boundedLoop_eq_tailLoop hws hwn (Nat.zero_add n).symm h

theorem conversions_of_invalid (h : FillsBeforeInvalid n ws) : ∃ cs c rest, ws = cs ++ c :: rest ∧ (∀ d ∈ cs, IsScalar d) ∧
    (cs.flatMap encode).length = n ∧
    wcsnrtombs false ws wn n =
      { ret := none, errno := some .EILSEQ, s := cs.flatMap encode, ws := some (c :: rest) } ∧
    wcsrtombs false ws n = { ret := some n, s := cs.flatMap encode, ws := some (c :: rest) } := by
  obtain ⟨cs, c, rest, rfl, hcs, rfl, hinvalid⟩ := h
  have hbytes := wcsrtombs_eq_tailLoop hws (cs.flatMap encode).length
  rw [List.forall_mem_append, List.forall_mem_cons] at hws
  rw [List.length_append] at hwn
  obtain ⟨hbounded, htail⟩ := loops_of_invalid (s := []) (N := (cs.flatMap encode).length)
    (fun d hd => ⟨(hws.1 d hd).1, hcs d hd⟩) hws.2.1 hinvalid (Nat.lt_of_le_of_lt (Nat.le_add_right _ _) hwn)
  exact ⟨cs, c, rest, rfl, hcs, rfl, hbounded, hbytes.trans htail⟩

/-- Both store whole characters, wherever they stop. -/
theorem stores_whole (null : Bool) (n : ℕ) :
    StoresWhole ws n (wcsrtombs null ws n) ∧ StoresWhole ws n (wcsnrtombs null ws wn n) := by
  cases null with
  | true =>
    have hloop : (lengthLoop ws ws 0).s = [] ∧ (lengthLoop ws ws 0).ws = some ws := lengthLoop_stores
    obtain ⟨hs, hsrc⟩ := hloop
    have hwhole : StoresWhole ws n (wcsrtombs true ws n) := by
      refine ⟨[], ws, rfl, by simp, ?_, Or.inl ⟨hs, hsrc⟩⟩
      change (lengthLoop ws ws 0).s.length ≤ n
      rw [hs]
      exact Nat.zero_le n
    exact ⟨hwhole, wcsnrtombs_null hws hwn n ▸ hwhole⟩
  | false =>
    have hwhole : StoresWhole ws n (wcsrtombs false ws n) := by
      have hloop : StoresWhole ([] ++ ws) n (tailLoop n ws n []) := tailLoop_stores hws (by simp) rfl (by simp)
      rwa [wcsrtombs_eq_tailLoop hws]
    refine ⟨hwhole, ?_⟩
    by_cases h : FillsBeforeInvalid n ws
    · obtain ⟨cs, c, rest, hsplit, hcs, hlen, hbounded, -⟩ := conversions_of_invalid hws hwn h
      rw [hbounded]
      exact ⟨cs, c :: rest, hsplit, hcs, hlen.le, Or.inl ⟨rfl, rfl⟩⟩
    · rw [wcsnrtombs_eq hws hwn h]
      exact hwhole

/-- **The bounded conversion** agrees with the other one, unless there is an invalid character right behind the characters
that fill the buffer. -/
theorem bounded_agrees_iff (null : Bool) (n : ℕ) : Agree null ws wn n ↔ null = true ∨ ¬FillsBeforeInvalid n ws := by
  have hwhole := stores_whole hws hwn null n
  constructor
  · rintro ⟨heq, -⟩
    cases null with
    | true => exact Or.inl rfl
    | false =>
      refine Or.inr fun h => ?_
      obtain ⟨cs, c, rest, -, -, -, hbounded, hunbounded⟩ := conversions_of_invalid hws hwn h
      rw [hbounded, hunbounded] at heq
      cases heq
  · intro h
    refine ⟨?_, hwhole⟩
    cases null with
    | true => exact wcsnrtombs_null hws hwn n
    | false => exact wcsnrtombs_eq hws hwn (h.resolve_left Bool.false_ne_true)

end

/-- The euro sign and an unpaired surrogate, and room for four bytes. -/
theorem bounded_agrees_iff_euro : Agree false [0x20AC, 0xD800] 9 4 ↔ false = true ∨ ¬FillsBeforeInvalid 4 [0x20AC, 0xD800] :=
  bounded_agrees_iff (by decide) (by decide) false 4

/-- With room for three. -/
theorem not_agree_exactly_full : ¬∀ (null : Bool) (ws : List ℕ) (wn n : ℕ), (∀ c ∈ ws, c ≠ 0 ∧ c < 2 ^ 32) → ws.length < wn →
    Agree null ws wn n := by
  intro h
  have hagree := (h false [0x20AC, 0xD800] 9 3 (by decide) (by decide)).1
  exact absurd hagree (by decide +kernel)

end OrbisCompat.Wchar
