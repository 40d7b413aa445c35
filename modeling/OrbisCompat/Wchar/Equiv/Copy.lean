import OrbisCompat.Wchar.Copy
import OrbisCompat.Wchar.Equiv.Compare

/-!
# What the copies of wide strings leave

`wmemmove` copies as if all elements were read before the first one is stored.  The others store one list of elements in one
place, and have a result exactly when that is in the array.
-/

namespace OrbisCompat.Wchar

variable {m : WideMem} {d s : ℕ} {n : ℕ}

/-! ### `wmemmove` -/

/-- The memory after all elements were read, and then stored. -/
def moved (m : WideMem) (d s n : ℕ) : WideMem := fun x => if d ≤ x ∧ x < d + n then m (s + (x - d)) else m x

theorem moveBack_eq (h : s ≤ d) (m : WideMem) (n : ℕ) : moveBack m d s n = moved m d s n := by
  induction n generalizing m with
  | zero =>
    funext x
    exact (if_neg fun hx => by omega).symm
  | succ n ih =>
    rw [moveBack, ih]
    funext x
    unfold moved
    by_cases hx : d ≤ x ∧ x < d + n
    · -- what is still to be read is in front of what is stored
      rw [if_pos hx, if_pos ⟨hx.1, by omega⟩, Function.update_of_ne (by omega)]
    · rw [if_neg hx]
      by_cases hlast : x = d + n
      · rw [hlast, Function.update_self, if_pos ⟨by omega, by omega⟩, Nat.add_sub_cancel_left]
      · rw [Function.update_of_ne hlast, if_neg fun hx' => by omega]

theorem moveFront_eq (h : d ≤ s ∨ s + n ≤ d) (m : WideMem) : moveFront m d s n = moved m d s n := by
  induction n generalizing m d s with
  | zero =>
    funext x
    exact (if_neg fun hx => by omega).symm
  | succ n ih =>
    rw [moveFront, ih (by omega)]
    funext x
    unfold moved
    by_cases hx : d + 1 ≤ x ∧ x < d + 1 + n
    · rw [if_pos hx, if_pos ⟨by omega, by omega⟩, Function.update_of_ne (by omega)]
      congr 1
      omega
    · rw [if_neg hx]
      by_cases hfirst : x = d
      · rw [hfirst, Function.update_self, if_pos ⟨le_rfl, by omega⟩, Nat.sub_self, Nat.add_zero]
      · rw [Function.update_of_ne hfirst, if_neg fun hx' => by omega]

/-- **`wmemmove`** copies as if all elements were read before the first one is stored, however the two parts overlap, and leaves
the rest of the memory as it is. -/
theorem wmemmove_eq (m : WideMem) {d s n : ℕ} (hd : d + n ≤ 2 ^ 62) (hs : s + n ≤ 2 ^ 62) :
    wmemmove m d s n = moved m d s n := by
  unfold wmemmove
  by_cases heq : d = s
  · rw [if_pos heq]
    funext x
    unfold moved
    split_ifs with hx
    · congr 1
      omega
    · rfl
  · rw [if_neg heq]
    -- the difference of the addresses wraps when `d` is in front of `s`, and is large then
    have hback : Word64.sub (4 * d) (4 * s) < n * 4 % 2 ^ 64 → s ≤ d := by
      unfold Word64.sub
      omega
    have hfront : ¬ Word64.sub (4 * d) (4 * s) < n * 4 % 2 ^ 64 → d ≤ s ∨ s + n ≤ d := by
      unfold Word64.sub
      omega
    split_ifs with hlt
    · exact moveBack_eq (hback hlt) m n
    · exact moveFront_eq (hfront hlt) m

theorem wmemmove_eq_overlap : wmemmove id 3 1 4 = moved id 3 1 4 := wmemmove_eq id (by norm_num) (by norm_num)

/-! ### Into an array -/

/-- The array with `vs` in it from `d[i]` on; `none` when they do not fit. -/
def stored (d : List ℕ) (i : ℕ) (vs : List ℕ) : Option (List ℕ) :=
  if i + vs.length ≤ d.length then some (d.take i ++ (vs ++ d.drop (i + vs.length))) else none

section Arrays

variable {d s t : List ℕ} {i c : ℕ}

theorem storeFrom_eq_stored (hi : i ≤ d.length) (vs : List ℕ) : Buffer.storeFrom d i vs = stored d i vs := by
  unfold stored
  split_ifs with hfit
  · exact Buffer.storeFrom_eq hfit
  · exact Buffer.storeFrom_eq_none hi (Nat.not_le.mp hfit)

theorem wmemset_eq (d : List ℕ) (i c n : ℕ) : wmemset d i c n = Buffer.storeFrom d i (List.replicate n c) := by
  induction n generalizing d i with
  | zero => rfl
  | succ n ih =>
    rw [wmemset, List.replicate_succ, Buffer.storeFrom]
    simp only [ih]

theorem wcscpyFrom_eq (d : List ℕ) (i : ℕ) (s : List ℕ) : wcscpyFrom d i s = Buffer.storeFrom d i (s ++ [0]) := by
  induction s generalizing d i with
  | nil =>
    rw [wcscpyFrom, List.nil_append, Buffer.storeFrom_singleton]
  | cons c s ih =>
    rw [wcscpyFrom, List.cons_append, Buffer.storeFrom]
    simp only [ih]

theorem copyUpTo_eq (d : List ℕ) (i n : ℕ) (s : List ℕ) :
    copyUpTo d i n s = (Buffer.storeFrom d i (s.take n)).map fun d => (d, i + (s.take n).length, n - s.length) := by
  induction n generalizing d i s with
  | zero => cases s <;> simp [copyUpTo, Buffer.storeFrom]
  | succ n ih =>
    cases s with
    | nil => rfl
    | cons c s =>
      rw [copyUpTo, List.take_succ_cons, Buffer.storeFrom, Option.bind_eq_bind, Option.bind_eq_bind]
      cases Buffer.store d i c with
      | none => rfl
      | some d =>
        rw [Option.bind_some, Option.bind_some, ih, List.length_cons, List.length_cons, Nat.succ_sub_succ, Nat.add_right_comm,
          Nat.add_assoc]

theorem wcsncpy_eq (d s : List ℕ) (n : ℕ) :
    wcsncpy d s n = stored d 0 (s.take n ++ List.replicate (n - s.length) 0) := by
  rw [← storeFrom_eq_stored (Nat.zero_le _), Buffer.storeFrom_append_right, wcsncpy, copyUpTo_eq, Option.bind_eq_bind]
  cases Buffer.storeFrom d 0 (s.take n) with
  | none => rfl
  | some d => exact wmemset_eq _ _ _ _

theorem wcsncat_eq (ht : 0 ∉ t) (rest s : List ℕ) (n : ℕ) :
    wcsncat (t ++ 0 :: rest) s n = stored (t ++ 0 :: rest) t.length (s.take n ++ [0]) := by
  have hle : t.length ≤ (t ++ 0 :: rest).length := by
    rw [List.length_append]
    exact Nat.le_add_right _ _
  rw [← storeFrom_eq_stored hle, Buffer.storeFrom_append_right, wcsncat, stringAt, List.drop_zero, Buffer.cstr_append ht,
    Option.bind_eq_bind, Option.bind_some, copyUpTo_eq]
  cases Buffer.storeFrom (t ++ 0 :: rest) t.length (s.take n) with
  | none => rfl
  | some d =>
    rw [Option.map_some, Option.bind_some, Option.bind_eq_bind, Option.bind_some]
    exact (Buffer.storeFrom_singleton _ _ _).symm

theorem wcscat_eq (ht : 0 ∉ t) (rest s : List ℕ) :
    wcscat (t ++ 0 :: rest) s = stored (t ++ 0 :: rest) t.length (s ++ [0]) := by
  have hle : t.length ≤ (t ++ 0 :: rest).length := by
    rw [List.length_append]
    exact Nat.le_add_right _ _
  rw [← storeFrom_eq_stored hle, ← wcscpyFrom_eq, wcscat, stringAt, List.drop_zero, Buffer.cstr_append ht]
  rfl

theorem wcsxfrm_eq (d s : List ℕ) (n : ℕ) :
    wcsxfrm d s n = (if n = 0 then some d else stored d 0 (s.take (n - 1) ++ [0])).map fun d => (s.length, d) := by
  unfold wcsxfrm
  dsimp only
  by_cases hlt : s.length < n
  · -- all of it, and the terminator
    have htake : (s ++ [0]).take (s.length + 1) = s.take (n - 1) ++ [0] := by
      rw [List.take_of_length_le (by rw [List.length_append, List.length_singleton]), List.take_of_length_le (by omega)]
    rw [if_pos hlt, if_neg (by omega), ← storeFrom_eq_stored (Nat.zero_le _), wmemcpy, htake]
    cases Buffer.storeFrom d 0 (s.take (n - 1) ++ [0]) <;> rfl
  · rw [if_neg hlt]
    by_cases hn : n = 0
    · rw [if_neg (not_not.mpr hn), if_pos hn]
      rfl
    · have htake : (s ++ [0]).take (n - 1) = s.take (n - 1) := List.take_append_of_le_length (by omega)
      have hlen : (s.take (n - 1)).length = n - 1 := List.length_take_of_le (by omega)
      rw [if_pos hn, if_neg hn, ← storeFrom_eq_stored (Nat.zero_le _), Buffer.storeFrom_append_right, wmemcpy, htake, hlen,
        Nat.zero_add, Option.bind_eq_bind]
      cases Buffer.storeFrom d 0 (s.take (n - 1)) with
      | none => rfl
      | some d =>
        rw [Option.bind_some, Option.bind_some, Buffer.storeFrom_singleton]
        cases Buffer.store d (n - 1) 0 <;> rfl

/-- **The copies**: each one stores one list of elements in one place, the terminator included, and stays in the array exactly
when that is in it. -/
theorem copies_stored (t s : WideString) (d rest : List ℕ) (n : ℕ) :
    wcscpy d s.chars = stored d 0 (s.chars ++ [0]) ∧
      wcsncpy d s.chars n = stored d 0 (s.chars.take n ++ List.replicate (n - s.chars.length) 0) ∧
      wcscat (t.chars ++ 0 :: rest) s.chars = stored (t.chars ++ 0 :: rest) t.chars.length (s.chars ++ [0]) ∧
      wcsncat (t.chars ++ 0 :: rest) s.chars n = stored (t.chars ++ 0 :: rest) t.chars.length (s.chars.take n ++ [0]) ∧
      wcsxfrm d s.chars n =
        (if n = 0 then some d else stored d 0 (s.chars.take (n - 1) ++ [0])).map fun d => (s.chars.length, d) := by
  have ht : 0 ∉ t.chars := fun h0 => t.ne_zero 0 h0 rfl
  refine ⟨?_, wcsncpy_eq _ _ _, wcscat_eq ht _ _, wcsncat_eq ht _ _ _, wcsxfrm_eq _ _ _⟩
  rw [wcscpy, wcscpyFrom_eq, storeFrom_eq_stored (Nat.zero_le _)]

end Arrays

end OrbisCompat.Wchar
