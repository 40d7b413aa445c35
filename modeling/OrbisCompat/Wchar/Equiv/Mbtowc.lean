import OrbisCompat.Wchar.Equiv.Decode
import OrbisCompat.Wchar.Equiv.Parts
import OrbisCompat.Wchar.Equiv.Produced
import OrbisCompat.Wchar.Mbtowc

/-!
# `mbtowc` agrees with `mbrtowc`

The entry of a lead byte says how long its character is, and the shifted test of `mbtowc` compares that with `n`
(`shifted_test`); so the reads behind it need no checks (`mbtowc_checked`), and both functions answer alike.

`%s` calls `mbtowc` until the terminator, or the precision.
-/

namespace OrbisCompat.Wchar.Restart

open Chunked Utf8

variable {b c i j k n x : ℕ} {mem s t : List ℕ}

/-! ### The test of the length -/

/-- How many bytes the character has whose lead byte is at entry `i`. -/
def charLength (i : ℕ) : ℕ := if i < 30 then 2 else if i < 46 then 3 else 4

/-- **The shifted test** says whether `n` is enough for the character. -/
theorem shifted_test (hi : i < 51) (hn : 0 < n) :
    (n < 4 ∧ Word32.shl (bittab.getD i 0) (6 * n - 6) &&& 2 ^ 31 ≠ 0) ↔ n < charLength i := by
  have htable : ∀ i < 51, ∀ n < 4, 0 < n →
      (Word32.shl (bittab.getD i 0) (6 * n - 6) &&& 2 ^ 31 ≠ 0 ↔ n < charLength i) := by decide +kernel
  by_cases hfour : n < 4
  · rw [← htable i hi n hfour hn]
    exact and_iff_right hfour
  · have hle : charLength i ≤ 4 := by
      unfold charLength
      split_ifs <;> omega
    exact iff_of_false (fun h => hfour h.1) (by omega)

/-- The marks of an entry. -/
theorem charLength_of_mark : ∀ i < 51, (bittab.getD i 0 &&& 2 ^ 25 ≠ 0 → 3 ≤ charLength i) ∧
    (bittab.getD i 0 &&& 2 ^ 19 ≠ 0 → charLength i = 4) := by decide +kernel

/-- A character is as long as its lead byte says. -/
theorem call_charLength (hi : i < 51) (hs : ∀ b ∈ s, b < 256)
    (h : call push 0 0 ((0xC2 + i) :: s) = .item c k x) : k = charLength i := by
  have hbytes : ∀ b ∈ (0xC2 + i) :: s, b < 256 := List.forall_mem_cons.mpr ⟨by omega, hs⟩
  obtain ⟨hk, hle, -⟩ := call_item h
  obtain ⟨k, rfl⟩ := Nat.exists_eq_add_one_of_ne_zero hk.ne'
  have hencoded := encoded_of_call hbytes h
  have hlen : ((0xC2 + i) :: s.take k).length = k + 1 := by
    rw [List.length_cons, List.length_take, Nat.min_eq_left (Nat.le_of_succ_le_succ hle)]
  rw [List.take_succ_cons] at hencoded
  rw [← hlen]
  unfold charLength
  generalize hl : (0xC2 + i) :: s.take k = l at hencoded
  cases hencoded with
  | one hb =>
    injection hl with hl
    omega
  | two hb _ =>
    injection hl with hl
    rw [if_pos (by omega)]
    rfl
  | three hb _ _ =>
    injection hl with hl
    rw [if_neg (by omega), if_pos (by omega)]
    rfl
  | four hb _ _ _ =>
    injection hl with hl
    rw [if_neg (by omega), if_neg (by omega)]
    rfl

/-! ### The reads -/

/-- What `mbtowc` makes of a call. -/
def single : Called ℕ ℕ → Option (ℕ × ℕ)
  | .item c j _ => some (j, c)
  | _ => none

/-- A fourth byte completes the character if it may follow. -/
theorem mbtowcFourth_checked (hmem : ∀ b ∈ mem, b < 256) (hc : Mid c) (hb : Trail b) (hmore : push c b = .more j)
    (hj : Mid j) (hs : mem.drop k = s) (hread : Readable (n + 1) s) :
    mbtowcFourth mem j k = some (single ((call push 0 j (s.take (n + 1))).shift 3)) := by
  obtain ⟨b', s, rfl, -⟩ := hread.uncons
  have hlt := (hs ▸ forall_mem_drop hmem : ∀ b ∈ b' :: s, b < 256) b' List.mem_cons_self
  unfold mbtowcFourth
  rw [get_of_drop hs, Option.bind_eq_bind, Option.bind_some, List.take_succ_cons]
  by_cases ht : Trail b'
  · rw [if_neg (not_not.mpr ht ∘ (test_trail hlt).mp), call_cons_item (push_mid_mid hc hb hmore ht), shift_in ht]
    rfl
  · rw [if_pos ((test_trail hlt).mpr ht), call_cons_bad (push_oob (.mid hj) (mt (hj.oob hlt).mp ht))]
    rfl

theorem mbtowcThird_checked (hmem : ∀ b ∈ mem, b < 256) (hc : Mid c) (hs : mem.drop k = s) (hread : Readable (n + 1) s)
    (hfourth : ∀ t, t < 64 → Word32.shl c 6 + t &&& 2 ^ 31 ≠ 0 → 0 < n) :
    mbtowcThird mem c k = some (single ((call push 0 c (s.take (n + 1))).shift 2)) := by
  obtain ⟨b, s, rfl, hrest⟩ := hread.uncons
  have hlt := (hs ▸ forall_mem_drop hmem : ∀ b' ∈ b :: s, b' < 256) b List.mem_cons_self
  unfold mbtowcThird
  rw [get_of_drop hs, Option.bind_eq_bind, Option.bind_some, List.take_succ_cons]
  by_cases ht : Trail b
  swap
  · rw [if_pos ((test_trail hlt).mpr ht), call_cons_bad (push_oob (.mid hc) (mt (hc.oob hlt).mp ht))]
    rfl
  have hnext := push_mid hc ht
  rw [if_neg (not_not.mpr ht ∘ (test_trail hlt).mp), shift_in ht]
  by_cases hdone : Word32.shl c 6 + (b - 0x80) &&& 2 ^ 31 = 0
  · rw [if_pos hdone] at hnext ⊢
    rw [call_cons_item hnext]
    rfl
  · rw [if_neg hdone] at hnext ⊢
    have hpos := hfourth _ (Trail.sub_lt ht) hdone
    obtain ⟨n, rfl⟩ := Nat.exists_eq_add_one_of_ne_zero hpos.ne'
    have hmid : Mid (Word32.shl c 6 + (b - 0x80)) := by
      rw [← shift_in ht] at hdone ⊢
      exact (Inside.mid hc).next hlt ((hc.oob hlt).mpr ht) hdone
    have hb : b ≠ 0 := by
      rintro rfl
      exact absurd ht (by decide)
    rw [call_cons_more hnext, Called.shift_shift, ← Nat.cast_succ]
    exact mbtowcFourth_checked hmem hc ht hnext hmid (drop_succ hs) (hrest hb)

theorem mbtowcSecond_checked (hmem : ∀ b ∈ mem, b < 256) (hi : i < 51) (hs : mem.drop k = s) (hread : Readable n s)
    (hn : charLength i ≤ n + 1) :
    mbtowcSecond mem (bittab.getD i 0) k = some (single ((call push 0 (bittab.getD i 0) (s.take n)).shift 1)) := by
  have hpos : 2 ≤ charLength i := by
    unfold charLength
    split_ifs <;> omega
  obtain ⟨n, rfl⟩ := Nat.exists_eq_add_one_of_ne_zero (show n ≠ 0 by omega)
  obtain ⟨b, s, rfl, hrest⟩ := hread.uncons
  have hlt := (hs ▸ forall_mem_drop hmem : ∀ b' ∈ b :: s, b' < 256) b List.mem_cons_self
  unfold mbtowcSecond
  rw [get_of_drop hs, Option.bind_eq_bind, Option.bind_some, List.take_succ_cons]
  by_cases hoob : OOB (bittab.getD i 0) b = 0
  swap
  · rw [if_pos hoob, call_cons_bad (push_oob (.lead hi) hoob)]
    rfl
  have ht := (Inside.lead hi).trail hlt hoob
  have hnext := push_next (.lead hi) hlt hoob
  rw [if_neg (not_not.mpr hoob), shift_in ht]
  by_cases hdone : Word32.shl (bittab.getD i 0) 6 + (b - 0x80) &&& 2 ^ 31 = 0
  · rw [if_pos hdone] at hnext ⊢
    rw [call_cons_item hnext]
    rfl
  · -- the mark of a third byte is there, so the character has one, and `n` is enough for it
    rw [if_neg hdone] at hnext ⊢
    obtain ⟨hthree, hfour⟩ := charLength_of_mark i hi
    have hlen := hthree (mt (mark_next (Trail.sub_lt ht)).mpr hdone)
    obtain ⟨n, rfl⟩ := Nat.exists_eq_add_one_of_ne_zero (show n ≠ 0 by omega)
    have hmid : Mid (Word32.shl (bittab.getD i 0) 6 + (b - 0x80)) := by
      rw [← shift_in ht] at hdone ⊢
      exact (Inside.lead hi).next hlt hoob hdone
    have hb : b ≠ 0 := by
      rintro rfl
      exact absurd ht (by decide)
    rw [call_cons_more hnext, Called.shift_shift, ← Nat.cast_succ]
    refine mbtowcThird_checked hmem hmid (drop_succ hs) (hrest hb) fun t' ht' hmore => ?_
    have := hfour (mt (mark_next_next (Trail.sub_lt ht) ht').mpr hmore)
    omega

/-- **`mbtowc` reads** what there is to read, and answers what `mbrtowc` does in one call. -/
theorem mbtowc_checked (hmem : ∀ b ∈ mem, b < 256) (hs : mem.drop k = s) (hn : 0 < n) (hread : Readable n s) :
    mbtowc mem k n = some (if s.head? = some 0 then some (0, 0) else single (call push 0 0 (s.take n))) := by
  obtain ⟨n, rfl⟩ := Nat.exists_eq_add_one_of_ne_zero hn.ne'
  obtain ⟨b, s, rfl, hrest⟩ := hread.uncons
  have hbytes : ∀ b' ∈ b :: s, b' < 256 := hs ▸ forall_mem_drop hmem
  have hlt := hbytes b List.mem_cons_self
  unfold mbtowc
  rw [if_neg hn.ne', get_of_drop hs, Option.bind_eq_bind, Option.bind_some, List.take_succ_cons, List.head?_cons]
  by_cases hascii : b < 0x80
  · rw [if_pos hascii, call_cons_item (push_ascii hascii)]
    by_cases hb : b = 0
    · simp [hb]
    · simp [hb, single]
  have hb : b ≠ 0 := by omega
  have hhead : ¬some b = some 0 := fun h => hb (Option.some.inj h)
  rw [if_neg hascii, if_neg hhead]
  by_cases hlead : Word32.sub b SA > SB - SA
  · rw [if_pos hlead, call_cons_bad (push_not_lead hlt hascii ((test_lead hlt).mp hlead))]
    rfl
  rw [if_neg hlead]
  rw [test_lead hlt, not_not] at hlead
  obtain ⟨i, rfl⟩ := Nat.exists_eq_add_of_le hlead.1
  have hi : i < 51 := by omega
  have hidx : 0xC2 + i - SA = i := Nat.add_sub_cancel_left _ _
  dsimp only
  rw [hidx]
  by_cases hshort : n + 1 < charLength i
  · -- too few bytes for the character, and no other fits
    rw [if_pos ((shifted_test hi hn).mpr hshort)]
    cases hcall : call push 0 0 ((0xC2 + i) :: s.take n) with
    | more x => rfl
    | bad x => rfl
    | item c j x =>
      have hlen := call_charLength hi (fun b hb => hbytes b (List.mem_cons_of_mem _ (List.mem_of_mem_take hb))) hcall
      have hle := (call_item hcall).2.1
      have htake := List.length_take_le n s
      rw [List.length_cons] at hle
      omega
  · rw [if_neg (mt (shifted_test hi hn).mp hshort), call_cons_more (push_lead hi), ← Nat.cast_succ]
    exact mbtowcSecond_checked hmem hi (drop_succ hs) (hrest hb) (Nat.not_lt.mp hshort)

/-! ### The same function without its reads -/

theorem headD_of_get (hpre : mem <+: s) (h : get mem k = some b) : (s.drop k).headD 0 = b := by
  obtain ⟨t, rfl⟩ := hpre
  unfold get at h
  rw [if_neg (by omega), Int.toNat_natCast, List.getElem?_eq_some_iff] at h
  obtain ⟨hk, rfl⟩ := h
  rw [List.drop_append_of_le_length hk.le, List.drop_eq_getElem_cons hk, List.cons_append, List.headD_cons]

/-- A read, and what follows it. -/
theorem read_then {α : Type} {i : ℤ} {f : ℕ → Option α} {r : α} (hpre : mem <+: s) (hi : i = k)
    (h : (get mem i).bind f = some r) : f ((s.drop k).headD 0) = some r := by
  obtain ⟨b, hb, hr⟩ := Option.bind_eq_some_iff.mp h
  subst hi
  rwa [headD_of_get hpre hb]

/-- A test that both of them make: what the one comes to, the other does. -/
theorem both_ite {α : Type} {P : Prop} [Decidable P] {a y r : α} {x : Option α} (h : (if P then some a else x) = some r)
    (hrest : ¬P → x = some r → y = r) : (if P then a else y) = r := by
  split_ifs at h ⊢ with hP
  · exact Option.some.inj h
  · exact hrest hP h

/-- `mbtowc` answers what it has read. -/
theorem mbtowc_of_checked {r : Option (ℕ × ℕ)} (hpre : mem <+: s) (h : mbtowc mem 0 n = some r) :
    Wchar.mbtowc s n = r := by
  have hdrop₂ : s.drop 2 = s.tail.tail := by simp only [← List.drop_one, List.drop_drop]
  have hdrop₃ : s.drop 3 = s.tail.tail.tail := by simp only [← List.drop_one, List.drop_drop]
  unfold mbtowc at h
  unfold Wchar.mbtowc
  refine both_ite h fun _ h => ?_
  have h := read_then (k := 0) hpre rfl h
  rw [List.drop_zero] at h
  refine both_ite h fun _ h => both_ite h fun _ h => ?_
  refine both_ite h fun _ h => ?_
  -- the second byte
  have h := read_then (k := 1) hpre rfl h
  rw [List.drop_one] at h
  refine both_ite h fun _ h => both_ite h fun _ h => ?_
  -- the third
  have h := read_then (k := 2) hpre rfl h
  rw [hdrop₂] at h
  refine both_ite h fun _ h => both_ite h fun _ h => ?_
  -- the fourth
  have h := read_then (k := 3) hpre rfl h
  rw [hdrop₃] at h
  refine both_ite h fun _ h => ?_
  exact Option.some.inj h

/-! ### The two decoders -/

/-- `mbtowc` of `n` bytes reads none behind them, and none behind a terminator.  It returns and stores what `mbrtowc` does
that starts in the initial state, and fails where that fails or is not done. -/
def SameAsMbrtowc (s : List ℕ) (n : ℕ) : Prop :=
  ∃ r, mbrtowc (visible n s) 0 n 0 = some r ∧ mbtowc (visible n s) 0 n = some (Wchar.mbtowc s n) ∧
    (∀ l c, Wchar.mbtowc s n = some (l, c) ↔ r.ret = l ∧ r.wc = some c) ∧
    (Wchar.mbtowc s n = none ↔ r.ret = -1 ∨ r.ret = -2)

theorem prefix_visible (n : ℕ) : ∀ s : List ℕ, visible n s <+: s := by
  induction n with
  | zero => exact fun s => List.nil_prefix
  | succ n ih =>
    intro s
    cases s with
    | nil => exact List.nil_prefix
    | cons b s =>
      unfold visible
      split_ifs with hb
      · rw [hb]
        exact List.cons_prefix_cons.mpr ⟨rfl, List.nil_prefix⟩
      · exact List.cons_prefix_cons.mpr ⟨rfl, ih s⟩

theorem mbtowc_same (hs : ∀ b ∈ s, b < 256) (hn : 0 < n) (hread : Readable n s) : SameAsMbrtowc s n := by
  have hvisible := forall_visible (n := n) hs
  have hread' := readable_visible n hread
  have htake := List.take_of_length_le (length_visible_le n s)
  have hmbrtowc := mbrtowc_checked (k := 0) hvisible (Or.inl rfl) rfl hread'
  have hmbtowc := mbtowc_checked (k := 0) hvisible rfl hn hread'
  rw [List.drop_zero, Nat.cast_zero, htake] at hmbrtowc hmbtowc
  have hsame := mbtowc_of_checked (prefix_visible n s) hmbtowc
  refine ⟨_, hmbrtowc, by rw [hmbtowc, hsame], ?_⟩
  rw [hsame]
  by_cases hhead : (visible n s).head? = some 0
  · rw [if_pos hhead, if_pos ⟨rfl, hhead⟩]
    refine ⟨fun l c => ?_, by simp⟩
    simp only [Option.some.injEq, Prod.mk.injEq]
    omega
  · rw [if_neg hhead, if_neg fun h => hhead h.2]
    cases hcall : call push 0 0 (visible n s) with
    | item c j x =>
      refine ⟨fun l c' => ?_, ?_⟩
      · simp only [single, answer, Option.some.injEq, Prod.mk.injEq]
        omega
      · simp [single, answer]
    | more x => simp [single, answer]
    | bad x => simp [single, answer, mbrIlseq]

end OrbisCompat.Wchar.Restart

namespace OrbisCompat.Wchar

open Utf8

variable {s : List ℕ}

/-! ### `%s` -/

/-- The precision `k` stops `%s` before the end of the string. -/
def Cuts (k : ℕ) (s : List ℕ) : Prop := ∃ ds bs, decode k s = some (ds, bs) ∧ bs ≠ []

/-- `mbstowcs` accepts the string, which has `l` characters. -/
def Decodes (s : List ℕ) (l : ℕ) : Prop :=
  (∀ n, (mbstowcs true s n).ret = some l) ∧ ∀ n, l < n → (mbstowcs false s n).ret = some l

/-- What has decoded to its end does so with more room as well. -/
theorem decode_add {k : ℕ} (j : ℕ) :
    ∀ {a ds : List ℕ}, decode k a = some (ds, []) → decode (k + j) a = some (ds, []) := by
  induction k with
  | zero =>
    intro a ds h
    rw [decode, Option.some.injEq, Prod.mk.injEq] at h
    obtain ⟨rfl, rfl⟩ := h
    rw [Nat.zero_add]
    cases j <;> rfl
  | succ k ih =>
    intro a ds h
    rw [Nat.add_right_comm]
    unfold decode at h ⊢
    cases hmb : mbtowc a W32_MB_LEN_MAX with
    | none =>
      rw [hmb] at h
      cases h
    | some r =>
      rw [hmb] at h
      dsimp only at h ⊢
      split_ifs at h ⊢ with hi
      · obtain ⟨⟨ds', bs'⟩, hrest, heq⟩ := Option.map_eq_some_iff.mp h
        cases heq
        rw [ih hrest]
        rfl
      · exact h

/-- What is left is an end of the string. -/
theorem decode_suffix {k : ℕ} : ∀ {a ds bs : List ℕ}, decode k a = some (ds, bs) → bs <:+ a := by
  induction k with
  | zero =>
    intro a ds bs h
    cases h
    exact List.suffix_refl a
  | succ k ih =>
    intro a ds bs h
    unfold decode at h
    cases hmb : mbtowc a W32_MB_LEN_MAX with
    | none =>
      rw [hmb] at h
      cases h
    | some r =>
      rw [hmb] at h
      dsimp only at h
      split_ifs at h with hi
      · obtain ⟨⟨ds', bs'⟩, hrest, heq⟩ := Option.map_eq_some_iff.mp h
        cases heq
        exact (ih hrest).trans (List.drop_suffix r.1 a)
      · cases h
        exact List.suffix_refl a

/-- **What decodes to its end** is what `mbstowcs` accepts. -/
theorem decode_eq_nil_iff (hs : IsBytes s) (k : ℕ) : (∃ ds, decode k s = some (ds, [])) ↔ ∃ l, Decodes s l ∧ l ≤ k := by
  constructor
  · rintro ⟨ds, h⟩
    have hwf : WellFormed s := by
      by_contra hwf
      have hnone := decode_malformed hs hwf (Nat.le_add_left s.length k)
      rw [decode_add s.length h] at hnone
      cases hnone
    obtain ⟨cs, hcs, rfl⟩ := exists_text hs hwf
    obtain ⟨hstore, hcount⟩ := mbstowcs_text hcs
    refine ⟨cs.length, ⟨hcount, fun n hn => by rw [hstore n hn]⟩, ?_⟩
    rw [decode_text hcs, Option.some.injEq, Prod.mk.injEq, List.flatMap_eq_nil_iff] at h
    by_contra hlt
    have hne : cs.drop k ≠ [] := List.length_pos_iff.mp (by rw [List.length_drop]; omega)
    obtain ⟨c, hc⟩ := List.exists_mem_of_ne_nil _ hne
    exact encode_ne_nil c (h.2 c hc)
  · rintro ⟨l, ⟨hcount, -⟩, hle⟩
    have hwf : WellFormed s := by
      by_contra hwf
      have hnone := ((mbstowcs_malformed hs hwf).2 0).1
      rw [hcount 0] at hnone
      cases hnone
    obtain ⟨cs, hcs, rfl⟩ := exists_text hs hwf
    have hlen : cs.length = l := Option.some.inj (((mbstowcs_text hcs).2 0).symm.trans (hcount 0))
    rw [decode_text hcs, List.drop_eq_nil_of_le (by omega)]
    exact ⟨_, rfl⟩

section

variable {Dbl LDbl : Type} {libc : Libc Dbl LDbl} {st : Printf Dbl LDbl} {x : Locals Dbl LDbl} {aq : List (Arg Dbl LDbl)}

/-- When `%s` takes its argument. -/
theorem convert_string (hlabel : Label.of x.conv = .string) (haq : x.aq = .str (some s) :: aq) :
    (∃ st', convert libc st x = .ok st') ↔
      ∃ ds bs, decode (x.p.getD INT_MAX) s = some (ds, bs) ∧ ¬(x.p = none ∧ bs.headD 0 ≠ 0) := by
  obtain ⟨hnone, hsome⟩ := countMultibyte_eq 0 (x.p.getD INT_MAX) s
  unfold convert
  rw [hlabel, haq]
  simp only [vaArg, Arg.asStr, bind, Except.bind, Option.getD_some]
  cases hdec : decode (x.p.getD INT_MAX) s with
  | none =>
    rw [if_pos (hnone hdec)]
    constructor
    · rintro ⟨st', h⟩
      cases h
    · rintro ⟨ds, bs, h, -⟩
      cases h
  | some r =>
    obtain ⟨ds, bs⟩ := r
    rw [hsome ds bs hdec]
    rw [if_neg Bool.false_ne_true]
    by_cases hover : x.p = none ∧ bs.headD 0 ≠ 0
    · rw [if_pos hover]
      constructor
      · rintro ⟨st', h⟩
        cases h
      · rintro ⟨ds', bs', heq, hnot⟩
        cases heq
        exact absurd hover hnot
    · rw [if_neg hover]
      exact ⟨fun _ => ⟨ds, bs, rfl, hover⟩, fun _ => ⟨_, rfl⟩⟩

/-- **`%s`**, when no precision cuts the string off. -/
theorem string_accepts (hlabel : Label.of x.conv = .string) (haq : x.aq = .str (some s) :: aq) (hs : IsBytes s)
    (hcuts : ∀ k, x.p = some k → ¬Cuts k s) :
    (∃ st', convert libc st x = .ok st') ↔ ∃ l, Decodes s l ∧ (x.p = none → l ≤ INT_MAX) := by
  rw [convert_string hlabel haq]
  cases hp : x.p with
  | none =>
    rw [Option.getD_none]
    have hend : (∃ ds bs, decode INT_MAX s = some (ds, bs) ∧ ¬((none : Option ℕ) = none ∧ bs.headD 0 ≠ 0)) ↔
        ∃ ds, decode INT_MAX s = some (ds, []) := by
      constructor
      · rintro ⟨ds, bs, hdec, hnot⟩
        cases bs with
        | nil => exact ⟨ds, hdec⟩
        | cons b bs =>
          have hb := hs b ((decode_suffix hdec).subset List.mem_cons_self)
          exact absurd ⟨rfl, by simp only [List.headD_cons]; omega⟩ hnot
      · rintro ⟨ds, hdec⟩
        exact ⟨ds, [], hdec, fun h => h.2 rfl⟩
    rw [hend, decode_eq_nil_iff hs]
    simp
  | some k =>
    rw [Option.getD_some]
    constructor
    · rintro ⟨ds, bs, hdec, -⟩
      have hbs : bs = [] := by
        by_contra hne
        exact hcuts k hp ⟨ds, bs, hdec, hne⟩
      subst hbs
      obtain ⟨l, hl, -⟩ := (decode_eq_nil_iff hs k).mp ⟨ds, hdec⟩
      exact ⟨l, hl, nofun⟩
    · rintro ⟨l, ⟨hcount, -⟩, -⟩
      have hwf : WellFormed s := by
        by_contra hwf
        have hnone := ((mbstowcs_malformed hs hwf).2 0).1
        rw [hcount 0] at hnone
        cases hnone
      obtain ⟨cs, hcs, rfl⟩ := exists_text hs hwf
      exact ⟨_, _, decode_text hcs k, fun h => nomatch h.1⟩

variable (Dbl LDbl) in
/-- **`mbtowc` answers like `mbrtowc`** from the initial state; and `%s`, where no precision cuts the string off, takes what
`mbstowcs` accepts, but without a precision at most `INT_MAX` characters. -/
theorem mbtowc_agrees :
    (∀ s n, (∀ b ∈ s, b < 256) → 0 < n → n ≤ s.length ∨ 0 ∈ s → Restart.SameAsMbrtowc s n) ∧
      ∀ (libc : Libc Dbl LDbl) (st : Printf Dbl LDbl) (x : Locals Dbl LDbl) s aq, Label.of x.conv = .string →
        x.aq = .str (some s) :: aq → IsBytes s → (∀ k, x.p = some k → ¬Cuts k s) →
        ((∃ st', convert libc st x = .ok st') ↔ ∃ l, Decodes s l ∧ (x.p = none → l ≤ INT_MAX)) :=
  ⟨fun _ _ hs hn hread => Restart.mbtowc_same hs hn hread,
    fun _ _ _ _ _ hlabel haq hs hcuts => string_accepts hlabel haq hs hcuts⟩

end

/-- A `snprintf` that fails, and a `malloc` that does not. -/
def failingLibc : Libc Unit Unit := ⟨fun _ _ => none, nofun, fun _ _ => true⟩

/-- The round of a `%s`. -/
def stringRound (s : List ℕ) : Locals Unit Unit := { f := [], aq := [.str (some s)], conv := 's'.toNat }

def emptyOut : Printf Unit Unit := { o := ⟨fun _ => 0, 0, 0⟩, f := [], aq := [] }

theorem mbtowc_agrees_euro :
    Restart.SameAsMbrtowc [0xE2, 0x82, 0xAC] 3 ∧
      ((∃ st', convert failingLibc emptyOut (stringRound [0xE2, 0x82, 0xAC]) = .ok st') ↔
        ∃ l, Decodes [0xE2, 0x82, 0xAC] l ∧ ((none : Option ℕ) = none → l ≤ INT_MAX)) :=
  ⟨(mbtowc_agrees Unit Unit).1 _ _ (by decide) (by decide) (by decide),
    (mbtowc_agrees Unit Unit).2 failingLibc emptyOut (stringRound [0xE2, 0x82, 0xAC]) _ [] (by decide) rfl
      (by unfold IsBytes; decide) nofun⟩

/-- `n` times the letter `A`. -/
theorem flatMap_encode_replicate (n : ℕ) : (List.replicate n 0x41).flatMap encode = List.replicate n 0x41 := by
  induction n with
  | zero => rfl
  | succ n ih => rw [List.replicate_succ, List.flatMap_cons, ih, show encode 0x41 = [0x41] from rfl, List.singleton_append]

/-- A string of more than `INT_MAX` characters is not cut off but turned down. -/
theorem string_too_long :
    IsBytes (List.replicate (INT_MAX + 1) 0x41) ∧ Decodes (List.replicate (INT_MAX + 1) 0x41) (INT_MAX + 1) ∧
      ¬∃ st', convert failingLibc emptyOut (stringRound (List.replicate (INT_MAX + 1) 0x41)) = .ok st' := by
  generalize hn : INT_MAX + 1 = n
  have hcs : IsText (List.replicate n 0x41) := by
    intro c hc
    rw [List.eq_of_mem_replicate hc]
    decide
  have hbytes : IsBytes (List.replicate n 0x41) := by
    intro b hb
    rw [List.eq_of_mem_replicate hb]
    decide
  have hdecodes : Decodes (List.replicate n 0x41) n := by
    obtain ⟨hstore, hcount⟩ := mbstowcs_text hcs
    rw [flatMap_encode_replicate, List.length_replicate] at hstore hcount
    exact ⟨hcount, fun k hk => by rw [hstore k hk]⟩
  refine ⟨hbytes, hdecodes, fun h => ?_⟩
  have hlabel : Label.of 's'.toNat = .string := by decide
  have hcuts : ∀ k, (none : Option ℕ) = some k → ¬Cuts k (List.replicate n 0x41) := nofun
  obtain ⟨l, hl, hle⟩ := (string_accepts hlabel rfl hbytes hcuts).mp h
  have hle := hle rfl
  have hsame := Option.some.inj ((hdecodes.1 0).symm.trans (hl.1 0))
  omega

end OrbisCompat.Wchar
