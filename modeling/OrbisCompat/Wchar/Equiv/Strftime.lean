import OrbisCompat.Wchar.Equiv.Bounded
import OrbisCompat.Wchar.Equiv.Strto
import OrbisCompat.Wchar.Equiv.Utf8
import OrbisCompat.Wchar.Strftime

/-!
# `wcsftime` is `strftime` between two encodings

A result that has room in the array as wide characters has room in the narrow buffer as bytes, four to a character
(`length_lt_narrowCap`).
-/

namespace OrbisCompat.Wchar

open Utf8

variable {Tm : Type} {lib : Strftime Tm} {M : Storage} {cs f s ws : List ℕ} {k n size : ℕ} {tm : Tm}

/-! ### The buffers -/

/-- There is enough memory, on the stack or on the heap. -/
theorem take_eq {large : Bool} (hlarge : large = false → k ≤ size) (hmalloc : M.malloc k = true) :
    ∃ b, M.take large size k = some b ∧ k ≤ b.length := by
  unfold Storage.take
  cases large with
  | true =>
    rw [if_pos rfl, if_pos hmalloc]
    exact ⟨_, rfl, (M.length_uninit k).ge⟩
  | false =>
    rw [if_neg Bool.false_ne_true]
    exact ⟨_, rfl, (hlarge rfl).trans (M.length_uninit size).ge⟩

theorem length_flatMap_encode_le (cs : List ℕ) : (cs.flatMap encode).length ≤ 4 * cs.length := by
  induction cs with
  | nil => exact Nat.le_refl 0
  | cons c cs ih =>
    have hc := length_encode_le c
    rw [List.flatMap_cons, List.length_append, List.length_cons]
    omega

/-- **The narrow buffer** has room for what the wide one has room for. -/
theorem length_lt_narrowCap (hn : n ≤ 2 ^ 20) (hlen : cs.length < n) : (cs.flatMap encode).length < narrowCap n := by
  have hle := length_flatMap_encode_le cs
  unfold narrowCap
  rw [if_neg (Nat.not_lt.mpr hn)]
  omega

theorem nul_not_mem (h : IsBytes s) : 0 ∉ s := fun hmem => absurd (h 0 hmem).1 (Nat.lt_irrefl 0)

/-- The format in the narrow buffer. -/
theorem format_text (hf : IsText f) {nf : List ℕ} (hlen : (f.flatMap encode).length + 1 ≤ nf.length) :
    ∃ b, Buffer.storeFrom nf 0 (wcstombs false f ((f.flatMap encode).length + 1)).s = some b ∧
      Buffer.cstr 0 b = some (f.flatMap encode) := by
  have hfit : (f.flatMap encode ++ [0]).length ≤ nf.length := by
    rw [List.length_append]
    exact hlen
  rw [(wcstombs_text hf).1 _ (Nat.lt_succ_self _), Buffer.storeFrom_zero hfit, List.append_assoc]
  exact ⟨_, rfl, Buffer.cstr_append (nul_not_mem hf.isBytes)⟩

variable (lib tm) in
/-- **Up to `strftime`** nothing is stored in `s` but the terminator. -/
theorem wcsftime_call (hn : 0 < n) (hs : 0 < s.length) (hf : IsText f)
    (hmalloc : ∀ k, k ≤ (f.flatMap encode).length + 1 ∨ k ≤ 4 * n + 1 → M.malloc k = true) :
    ∃ out, narrowCap n ≤ out.length ∧ ∀ r, lib.call out (narrowCap n) (f.flatMap encode) tm = r →
      wcsftime lib M s n f tm = storeResult (0 :: s.tail) n r.1 r.2 := by
  have hcap : narrowCap n ≤ 4 * n + 1 := by
    unfold narrowCap
    split_ifs <;> omega
  have hstack : ∀ k size, decide (k > size) = false → k ≤ size := fun k size h =>
    Nat.not_lt.mp (of_decide_eq_false h)
  have hformat : decide ((f.flatMap encode).length ≥ fstackSize) = false → (f.flatMap encode).length + 1 ≤ fstackSize :=
    fun h => Nat.not_le.mp (of_decide_eq_false h)
  obtain ⟨nf, hnf, hnflen⟩ := take_eq hformat (hmalloc _ (.inl le_rfl))
  obtain ⟨out, hout, houtlen⟩ := take_eq (hstack (narrowCap n) ostackSize) (hmalloc _ (.inr hcap))
  obtain ⟨b, hb, htext⟩ := format_text hf hnflen
  refine ⟨out, houtlen, ?_⟩
  rintro r rfl
  unfold wcsftime wcsftimeL
  rw [if_neg hn.ne', Buffer.store_eq hs, Option.bind_eq_bind, Option.bind_some, (wcstombs_text hf).2 0]
  dsimp only
  rw [hnf]
  dsimp only
  rw [hb, Option.bind_some, hout]
  dsimp only
  rw [htext, Option.bind_some, List.take_zero, List.nil_append, List.drop_one]

/-! ### The result -/

/-- What `strftime` makes of the format is the text of `ws`, and the array has room for it. -/
structure Fits (lib : Strftime Tm) (f : List ℕ) (tm : Tm) (n : ℕ) (ws : List ℕ) : Prop where
  text : IsText ws
  result : lib.result (f.flatMap encode) tm = ws.flatMap encode
  ne_nil : ws ≠ []
  length_lt : ws.length < n

/-- A result with room in the buffer, as `storeResult` reads it. -/
theorem storeResult_of_fits {out : List ℕ} (h : IsBytes cs) (hcs : cs ≠ []) :
    storeResult s n cs.length (cs ++ 0 :: out) =
      match (mbstowcs true cs 0).ret with
      | some wl =>
        if wl < n then (Buffer.storeFrom s 0 (mbstowcs false cs n).ws).bind fun s => some (s, wl) else some (s, 0)
      | none => some (s, 0) := by
  have hpos : cs.length ≠ 0 := mt List.length_eq_zero_iff.mp hcs
  unfold storeResult
  rw [if_pos hpos, Buffer.cstr_append (nul_not_mem h)]
  cases hret : (mbstowcs true cs 0).ret with
  | none =>
    rw [Option.bind_eq_bind, Option.bind_some, hret]
  | some wl =>
    rw [Option.bind_eq_bind, Option.bind_some, hret]

theorem flatMap_encode_ne_nil (h : ws ≠ []) : ws.flatMap encode ≠ [] := by
  obtain ⟨c, ws, rfl⟩ := List.exists_cons_of_ne_nil h
  rw [List.flatMap_cons]
  exact List.append_ne_nil_of_left_ne_nil (encode_ne_nil c) _

/-- A text that fits is stored, with a terminator. -/
theorem storeResult_text {out : List ℕ} (hws : IsText ws) (hne : ws ≠ []) (hlen : ws.length < n) (hs : n ≤ s.length) :
    storeResult s n (ws.flatMap encode).length (ws.flatMap encode ++ 0 :: out) =
      some (ws ++ 0 :: s.drop (ws.length + 1), ws.length) := by
  obtain ⟨hstore, hcount⟩ := mbstowcs_text hws
  have hfit : (ws ++ [0]).length ≤ s.length := by
    rw [List.length_append, List.length_singleton]
    omega
  rw [storeResult_of_fits hws.isBytes (flatMap_encode_ne_nil hne), hcount 0, hstore n hlen]
  dsimp only
  rw [if_pos hlen, Buffer.storeFrom_zero hfit, List.length_append, List.append_assoc]
  rfl

/-- Anything else is not. -/
theorem storeResult_other {out : List ℕ} (h : IsBytes cs)
    (hnone : ¬∃ ws, IsText ws ∧ cs = ws.flatMap encode ∧ ws ≠ [] ∧ ws.length < n) :
    storeResult s n cs.length (cs ++ 0 :: out) = some (s, 0) := by
  by_cases hcs : cs = []
  · -- `strftime` returns zero here too
    rw [hcs]
    rfl
  rw [storeResult_of_fits h hcs]
  by_cases hwf : WellFormed cs
  · -- a text, for which there is no room
    obtain ⟨ws, hws, rfl⟩ := exists_text h hwf
    have hne : ws ≠ [] := by
      rintro rfl
      exact hcs rfl
    have hlen : ¬ws.length < n := fun hlt => hnone ⟨ws, hws, rfl, hne, hlt⟩
    rw [(mbstowcs_text hws).2 0]
    exact if_neg hlen
  · rw [((mbstowcs_malformed h hwf).2 0).1]

theorem drop_cons_tail (a : ℕ) (s : List ℕ) (k : ℕ) : (a :: s.tail).drop (k + 1) = s.drop (k + 1) := by
  rw [List.drop_succ_cons, ← List.drop_one, List.drop_drop, Nat.add_comm]

section

variable (hn : 0 < n) (hmax : n ≤ 2 ^ 20) (hs : n ≤ s.length) (hf : IsText f)
  (hmalloc : ∀ k, k ≤ (f.flatMap encode).length + 1 ∨ k ≤ 4 * n + 1 → M.malloc k = true)

include hn hmax hs hf hmalloc

theorem wcsftime_of_fits (h : Fits lib f tm n ws) :
    wcsftime lib M s n f tm = some (ws ++ 0 :: s.drop (ws.length + 1), ws.length) := by
  obtain ⟨out, hout, hcall⟩ := wcsftime_call lib tm hn (hn.trans_le hs) hf hmalloc
  have hroom : (lib.result (f.flatMap encode) tm).length < narrowCap n := by
    rw [h.result]
    exact length_lt_narrowCap hmax h.length_lt
  have hsize : n ≤ (0 :: s.tail).length := by
    rw [List.length_cons, List.length_tail]
    omega
  rw [hcall _ (lib.call_fits out (narrowCap n) _ tm hout hroom), h.result]
  dsimp only
  rw [storeResult_text h.text h.ne_nil h.length_lt hsize, drop_cons_tail]

omit hmax in
theorem wcsftime_of_not_fits (h : ¬∃ ws, Fits lib f tm n ws) :
    wcsftime lib M s n f tm = some (0 :: s.tail, 0) := by
  obtain ⟨out, hout, hcall⟩ := wcsftime_call lib tm hn (hn.trans_le hs) hf hmalloc
  by_cases hroom : (lib.result (f.flatMap encode) tm).length < narrowCap n
  · -- all of it is in the narrow buffer, so it is no text that the array has room for
    rw [hcall _ (lib.call_fits out (narrowCap n) _ tm hout hroom)]
    apply storeResult_other (lib.result_bytes _ tm)
    rintro ⟨ws, htext, hresult, hne, hlen⟩
    exact h ⟨ws, htext, hresult, hne, hlen⟩
  · rw [hcall _ rfl]
    have hzero := lib.call_too_long out (narrowCap n) (f.flatMap encode) tm hout (Nat.not_lt.mp hroom)
    unfold storeResult
    rw [if_neg (not_not.mpr hzero)]

end

/-- **`wcsftime`** stores the text that `strftime` makes of the format, where there is room for it, and else the empty one. -/
theorem wcsftime_strftime (lib : Strftime Tm) (M : Storage) (s : List ℕ) (n : ℕ) (f : List ℕ) (tm : Tm) (hn : 0 < n)
    (hmax : n ≤ 2 ^ 20) (hs : n ≤ s.length) (hf : IsText f)
    (hmalloc : ∀ k, k ≤ (f.flatMap encode).length + 1 ∨ k ≤ 4 * n + 1 → M.malloc k = true) :
    ∃ s' r, wcsftime lib M s n f tm = some (s', r) ∧ s'.drop n = s.drop n ∧
      (∀ ws, Fits lib f tm n ws → s' = ws ++ 0 :: s.drop (ws.length + 1) ∧ r = ws.length) ∧
      ((¬∃ ws, Fits lib f tm n ws) → s' = 0 :: s.tail ∧ r = 0) := by
  by_cases h : ∃ ws, Fits lib f tm n ws
  · obtain ⟨ws, hws⟩ := h
    have hrun := wcsftime_of_fits hn hmax hs hf hmalloc hws
    refine ⟨_, _, hrun, ?_, fun ws' hws' => ?_, fun hnone => absurd ⟨ws, hws⟩ hnone⟩
    · -- the terminator is the last that is stored
      obtain ⟨k, hk⟩ := Nat.exists_eq_add_of_lt hws.length_lt
      rw [show n = ws.length + (k + 1) by omega, List.drop_length_add_append, List.drop_succ_cons, List.drop_drop]
      congr 1
      omega
    · have heq := Option.some.inj (hrun.symm.trans (wcsftime_of_fits hn hmax hs hf hmalloc hws'))
      exact Prod.mk.inj heq
  · obtain ⟨n, rfl⟩ := Nat.exists_eq_add_one_of_ne_zero hn.ne'
    exact ⟨_, _, wcsftime_of_not_fits hn hs hf hmalloc h, drop_cons_tail 0 s n,
      fun ws hws => absurd ⟨ws, hws⟩ h, fun _ => ⟨rfl, rfl⟩⟩

/-- A `strftime` that copies a format of ordinary characters. -/
def copyFormat : Strftime Unit where
  result f _ := if ∀ b ∈ f, 0 < b ∧ b < 256 then f else []
  result_bytes f _ := by
    split_ifs with h
    · exact h
    · exact nofun
  call out cap f _ :=
    let b := if ∀ b ∈ f, 0 < b ∧ b < 256 then f else []
    if b.length < cap then (b.length, b ++ 0 :: out.drop (b.length + 1)) else (0, out)
  call_fits _ _ _ _ _ h := if_pos h
  call_too_long _ _ _ _ _ h := by rw [if_neg (Nat.not_lt.mpr h)]

theorem wcsftime_strftime_euro :
    wcsftime copyFormat storage (List.replicate 4 7) 4 [0x20AC, '5'.toNat] () = some ([0x20AC, '5'.toNat, 0, 7], 2) := by
  have htext : IsText [0x20AC, '5'.toNat] := by
    unfold IsText IsScalar
    decide
  obtain ⟨s', r, hrun, -, hfits, -⟩ := wcsftime_strftime copyFormat storage (List.replicate 4 7) 4
    [0x20AC, '5'.toNat] () (by decide) (by decide) (by decide) htext fun _ _ => rfl
  obtain ⟨rfl, rfl⟩ := hfits _ ⟨htext, by decide, by decide, by decide⟩
  exact hrun

end OrbisCompat.Wchar
