import OrbisCompat.Lib.Utf16
import OrbisCompat.Wchar.Equiv.Bounded
import OrbisCompat.Wchar.Equiv.Calls
import OrbisCompat.Wchar.Utf16

/-!
# `mbrtoc16` and `c16rtomb` are inverse

Between two calls of `mbrtoc16` the state object holds a part of a character, or the second half of the pair whose first
half was delivered (`At`); the high bit tells one from the other (`Inside.not_pending`).  A call keeps this, whatever it is
given of the bytes to come (`mbrtoc16_delivers`), so the units do not depend on where the bytes are cut (`deliver_text`).

`c16rtomb` turns them back into the bytes, and what it takes is well formed (`c16rtombs_iff`).
-/

namespace OrbisCompat.Wchar

open Chunked Utf8
open Utf16 (High Low)

variable {c n st u v x : ℕ} {bs cs p s us : List ℕ}

/-! ### `c16rtomb` -/

/-- What the first half of a pair leaves in the state object. -/
def half (u : ℕ) : ℕ := 0x10000 + (u - 0xD800) * 1024

theorem half_ne_zero (u : ℕ) : half u ≠ 0 := by
  unfold half
  omega

theorem c16rtomb_high (hu : High u) : c16rtomb false u 0 = { ret := some 0, st := half u } := by
  have hstate : Word32.shl (Word32.sub u 0xd7c0) 10 = half u := by
    unfold High at hu
    unfold Word32.shl Word32.sub half
    rw [Nat.shiftLeft_eq]
    omega
  have htest : Word32.sub u 0xd800 < 0x400 := by
    unfold High at hu
    unfold Word32.sub
    omega
  unfold c16rtomb
  rw [if_neg Bool.false_ne_true, if_pos ⟨rfl, htest⟩, hstate]

/-- The second half. -/
theorem c16rtomb_pair (hu : High u) (hv : v < 0x10000) : c16rtomb false v (half u) =
    if Low v then { ret := some (encode (Utf16.ofPair u v)).length, s := encode (Utf16.ofPair u v), st := 0 }
    else c16Ilseq := by
  have hne := half_ne_zero u
  have htest : Word32.sub v 0xdc00 ≥ 0x400 ↔ ¬Low v := by
    unfold Low Word32.sub
    omega
  unfold c16rtomb
  rw [if_neg Bool.false_ne_true, if_neg fun h => hne h.1, if_pos hne]
  by_cases hlow : Low v
  · have hwc : Word32.sub ((half u + v) % 2 ^ 32) 0xdc00 = Utf16.ofPair u v := by
      unfold High at hu
      unfold Low at hlow
      unfold Word32.sub Utf16.ofPair half
      omega
    rw [if_neg (not_not.mpr hlow ∘ htest.mp), if_pos hlow, hwc, c16Encode,
      wcrtomb_scalar (Utf16.ofPair_spec hu hlow).1]
  · rw [if_pos (htest.mpr hlow), if_neg hlow]

/-- A unit that begins no pair. -/
theorem c16rtomb_single (hu : u < 0x10000) (hhigh : ¬High u) : c16rtomb false u 0 =
    if Low u then c16Ilseq else { ret := some (encode u).length, s := encode u, st := 0 } := by
  have htest : ¬(0 = 0 ∧ Word32.sub u 0xd800 < 0x400) := by
    unfold High at hhigh
    unfold Word32.sub
    omega
  have hzero : ¬(0 : ℕ) ≠ 0 := not_not.mpr rfl
  unfold c16rtomb
  rw [if_neg Bool.false_ne_true, if_neg htest, if_neg hzero, c16Encode]
  by_cases hlow : Low u
  · have hscalar : ¬IsScalar u := by
      unfold Low at hlow
      unfold IsScalar
      omega
    have hword : u < 2 ^ 32 := by omega
    rw [if_pos hlow, wcrtomb_eq_none hword hscalar]
  · rw [if_neg hlow, wcrtomb_scalar (Utf16.isScalar_of_unit hu hhigh hlow)]

/-- A call that succeeds. -/
theorem c16rtombs_cons {k y : ℕ} (h : c16rtomb false u x = { ret := some k, s := bs, st := y }) :
    c16rtombs (u :: us) x = (c16rtombs us y).map fun r => (bs ++ r.1, r.2) := by
  rw [c16rtombs, h]
  rfl

/-- A call that fails. -/
theorem c16rtombs_fail (h : c16rtomb false u x = c16Ilseq) : c16rtombs (u :: us) x = none := by
  rw [c16rtombs, h]
  rfl

/-- **The units of characters** become their bytes. -/
theorem c16rtombs_encode (hcs : ∀ c ∈ cs, IsScalar c) :
    c16rtombs (cs.flatMap Utf16.encode) 0 = some (cs.flatMap encode, 0) := by
  induction cs with
  | nil => rfl
  | cons c cs ih =>
    rw [List.forall_mem_cons] at hcs
    obtain ⟨hc, hcs⟩ := hcs
    rw [List.flatMap_cons, List.flatMap_cons]
    by_cases hlarge : 0x10000 ≤ c
    · obtain ⟨hhigh, hlow⟩ := Utf16.pair_of_scalar hc hlarge
      have hpair := c16rtomb_pair hhigh (hlow.2.trans (by norm_num))
      rw [if_pos hlow, Utf16.ofPair_encode hlarge] at hpair
      rw [Utf16.encode_two hlarge, List.cons_append, List.singleton_append, c16rtombs_cons (c16rtomb_high hhigh),
        c16rtombs_cons hpair, ih hcs]
      rfl
    · have hunit : c < 0x10000 := Nat.not_le.mp hlarge
      have hhigh : ¬High c := by
        unfold IsScalar at hc
        unfold High
        omega
      have hlow : ¬Low c := by
        unfold IsScalar at hc
        unfold Low
        omega
      have hsingle := c16rtomb_single hunit hhigh
      rw [if_neg hlow] at hsingle
      rw [Utf16.encode_one hunit, List.singleton_append, c16rtombs_cons hsingle, ih hcs]
      rfl

/-- What `c16rtomb` accepts is well formed, also behind the first half `u` of a pair. -/
theorem wellFormed_of_c16rtombs (hus : ∀ v ∈ us, v < 0x10000) : (∀ bs, c16rtombs us 0 = some (bs, 0) → Utf16.WellFormed us) ∧
    ∀ u, High u → ∀ bs, c16rtombs us (half u) = some (bs, 0) → Utf16.WellFormed (u :: us) := by
  induction us with
  | nil =>
    refine ⟨fun _ _ => .nil, fun u _ bs h => ?_⟩
    simp only [c16rtombs, Option.some.injEq, Prod.mk.injEq] at h
    exact absurd h.2 (half_ne_zero u)
  | cons v us ih =>
    rw [List.forall_mem_cons] at hus
    obtain ⟨hv, hus⟩ := hus
    obtain ⟨ih, ihPair⟩ := ih hus
    constructor
    · intro bs h
      by_cases hhigh : High v
      · rw [c16rtombs_cons (c16rtomb_high hhigh), Option.map_eq_some_iff] at h
        obtain ⟨⟨bs', x⟩, hrest, heq⟩ := h
        have hx : x = 0 := congrArg Prod.snd heq
        exact ihPair v hhigh bs' (hx ▸ hrest)
      · have hsingle := c16rtomb_single hv hhigh
        by_cases hlow : Low v
        · rw [if_pos hlow] at hsingle
          rw [c16rtombs_fail hsingle] at h
          cases h
        · rw [if_neg hlow] at hsingle
          rw [c16rtombs_cons hsingle, Option.map_eq_some_iff] at h
          obtain ⟨⟨bs', x⟩, hrest, heq⟩ := h
          have hx : x = 0 := congrArg Prod.snd heq
          exact .one hv hhigh hlow (ih bs' (hx ▸ hrest))
    · intro u hu bs h
      have hpair := c16rtomb_pair hu hv
      by_cases hlow : Low v
      · rw [if_pos hlow] at hpair
        rw [c16rtombs_cons hpair, Option.map_eq_some_iff] at h
        obtain ⟨⟨bs', x⟩, hrest, heq⟩ := h
        have hx : x = 0 := congrArg Prod.snd heq
        exact .pair hu hlow (ih bs' (hx ▸ hrest))
      · rw [if_neg hlow] at hpair
        rw [c16rtombs_fail hpair] at h
        cases h

/-- **`c16rtomb` accepts** the well-formed sequences, and no others. -/
theorem c16rtombs_iff (hus : ∀ u ∈ us, u < 0x10000) : (∃ bs, c16rtombs us 0 = some (bs, 0)) ↔ Utf16.WellFormed us := by
  constructor
  · rintro ⟨bs, h⟩
    exact (wellFormed_of_c16rtombs hus).1 bs h
  · intro h
    obtain ⟨cs, hcs, rfl⟩ := Utf16.wellFormed_iff.mp h
    exact ⟨_, c16rtombs_encode hcs⟩

/-! ### Parts of a character -/

section

variable {q rest t : List ℕ}

/-- What a state holds that is not a character is less than the next one. -/
theorem exists_rest (hc : IsScalar c) (hp : call push 0 0 p = .more st) (h : p ++ s = encode c ++ rest) :
    ∃ q, q ≠ [] ∧ encode c = p ++ q ∧ s = q ++ rest := by
  have hnot : ∀ t, p ≠ encode c ++ t := by
    rintro t rfl
    rw [call_encoded (.of_scalar hc)] at hp
    cases hp
  rcases List.append_eq_append_iff.mp h with ⟨q, hencode, hs⟩ | ⟨t, hp', -⟩
  · refine ⟨q, ?_, hencode, hs⟩
    rintro rfl
    exact hnot [] (by rw [hencode, List.append_nil, List.append_nil])
  · exact absurd hp' (hnot t)

/-- The rest of a character completes it. -/
theorem call_rest (hc : IsScalar c) (hp : call push 0 0 p = .more st) (h : encode c = p ++ q) (t : List ℕ) :
    call push 0 st (q ++ t) = .item c q.length 0 := by
  have hcall : call push 0 0 (encode c ++ t) = .item c (encode c).length 0 := call_encoded (.of_scalar hc)
  rw [h, List.append_assoc, call_append, hp] at hcall
  dsimp only at hcall
  rw [Called.shift_eq_item] at hcall
  obtain ⟨j, hj, hlen⟩ := hcall
  rw [List.length_append] at hlen
  rw [hj, show j = q.length by omega]

/-- A part of the rest does not. -/
theorem call_part (hc : IsScalar c) (hp : call push 0 0 p = .more st) (h : encode c = p ++ (q ++ t)) (ht : t ≠ []) :
    ∃ st', call push 0 st q = .more st' := by
  have hcall := call_rest hc hp h []
  rw [List.append_nil, call_append] at hcall
  cases hq : call push 0 st q with
  | more st' => exact ⟨st', rfl⟩
  | bad st' =>
    rw [hq] at hcall
    cases hcall
  | item c' k st' =>
    rw [hq] at hcall
    injection hcall with _ hk
    have hle := (call_item hq).2.1
    have hpos := List.length_pos_iff.mpr ht
    rw [List.length_append] at hk
    omega

end

/-! ### `mbrtoc16` -/

theorem Inside.not_pending (h : Inside st) : ¬Pending st := by
  have hentry : ∀ i < 51, 2 ^ 31 ≤ bittab.getD i 0 := by decide +kernel
  rintro ⟨-, hlt⟩
  cases h with
  | lead hi => exact absurd hlt (Nat.not_lt.mpr (hentry _ hi))
  | mid h => cases h <;> omega

theorem Between.not_pending (h : Between st) : ¬Pending st := by
  rcases h with rfl | h
  · exact fun h => h.1 rfl
  · exact h.not_pending

theorem pending_low (c : ℕ) : Pending (0xDC00 + c % 1024) := by
  unfold Pending
  omega

section

variable (hst : Between st) (hs : ∀ b ∈ s, b < 256)
include hst hs

/-- A call that reads all bytes and completes no character. -/
theorem mbrtoc16_more (h : call push 0 st s = .more x) :
    (mbrtoc16 (some s) s.length st).ret = -2 ∧ (mbrtoc16 (some s) s.length st).st = x := by
  rw [← mbrtowc_call hst hs, called_eq_more] at h
  unfold mbrtoc16 mbrtoc16Some
  dsimp only
  rw [if_neg hst.not_pending, h.1, if_neg (by decide)]
  exact ⟨rfl, h.2⟩

/-- A call that completes a character delivers it, or the first half of its pair. -/
theorem mbrtoc16_item {k : ℕ} (h : call push 0 st s = .item c k 0) (hc : c ≠ 0) (hscalar : IsScalar c) :
    (mbrtoc16 (some s) s.length st).ret = k ∧
      (mbrtoc16 (some s) s.length st).c16 = some (if 0x10000 ≤ c then 0xD7C0 + c / 1024 else c) ∧
      (mbrtoc16 (some s) s.length st).st = if 0x10000 ≤ c then 0xDC00 + c % 1024 else 0 := by
  have hlen := (Restart.call_length hst hs).2 c k 0 h
  have hpos := (call_item h).1
  have hne : (mbrtowc (some s) s.length st).ret ≠ 0 := by
    rw [Ne, Restart.mbrtowc_ret_zero]
    rintro ⟨rfl, hhead⟩
    obtain ⟨t, rfl⟩ := List.head?_eq_some_iff.mp hhead
    rw [call_cons_item (push_ascii (by norm_num))] at h
    injection h with h
    exact hc h.symm
  rw [← mbrtowc_call hst hs] at h
  obtain ⟨-, -, hwc, hret, hst'⟩ := Restart.called_eq_item h
  rw [if_neg hne] at hret
  have hret : (mbrtowc (some s) s.length st).ret = k := by omega
  have hand : c &&& 0x3ff = c % 1024 := Nat.and_two_pow_sub_one_eq_mod c 10
  unfold mbrtoc16 mbrtoc16Some
  dsimp only
  rw [if_neg hst.not_pending, hret, hwc, hst', if_pos (by omega)]
  by_cases hlarge : 0x10000 ≤ c
  · have hhigh : (0xd7c0 + c >>> 10) % 2 ^ 16 = 0xD7C0 + c / 1024 := by
      unfold IsScalar at hscalar
      rw [Nat.shiftRight_eq_div_pow]
      omega
    rw [if_pos hlarge, if_pos hlarge, if_pos hlarge, hhigh, hand, Nat.add_comm (c % 1024)]
    exact ⟨rfl, rfl, rfl⟩
  · have hunit : c % 2 ^ 16 = c := by omega
    rw [if_neg hlarge, if_neg hlarge, if_neg hlarge, hunit]
    exact ⟨rfl, rfl, rfl⟩

end

/-- The second half of a pair. -/
theorem mbrtoc16_second (c : ℕ) (s : List ℕ) :
    mbrtoc16 (some s) s.length (0xDC00 + c % 1024) = { ret := -3, c16 := some (0xDC00 + c % 1024), st := 0 } := by
  have hunit : (0xDC00 + c % 1024) % 2 ^ 16 = 0xDC00 + c % 1024 := by omega
  unfold mbrtoc16 mbrtoc16Some
  dsimp only
  rw [if_pos (pending_low c), hunit]

/-! ### A caller -/

/-- Of the characters `cs`, the units `us` are delivered, with `st` in the state object and the bytes `s` to come. -/
inductive At (cs : List ℕ) : List ℕ → ℕ → List ℕ → Prop
  | between {cs₁ cs₂ p s : List ℕ} {st : ℕ} (hcs : cs = cs₁ ++ cs₂) (hp : Holds p st) (hs : p ++ s = cs₂.flatMap encode) :
      At cs (cs₁.flatMap Utf16.encode) st s
  | pending {cs₁ cs₂ : List ℕ} {c : ℕ} (hcs : cs = cs₁ ++ c :: cs₂) (hc : 0x10000 ≤ c) :
      At cs (cs₁.flatMap Utf16.encode ++ [0xD7C0 + c / 1024]) (0xDC00 + c % 1024) (cs₂.flatMap encode)

/-- What a call does over the next bytes: it reads all of them, or delivers a second half, or completes a character. -/
inductive Delivers (cs us : List ℕ) (st : ℕ) (chunk rest : List ℕ) : Mbrtoc16 → Prop
  | more {r : Mbrtoc16} (hret : r.ret = -2) (hst : ¬Pending r.st) (h : At cs us r.st rest) : Delivers cs us st chunk rest r
  | second {r : Mbrtoc16} (hret : r.ret = -3) (hst : Pending st) (hst' : ¬Pending r.st)
      (h : At cs (us ++ r.c16.toList) r.st (chunk ++ rest)) : Delivers cs us st chunk rest r
  | unit {r : Mbrtoc16} {k : ℕ} (hret : r.ret = k) (hk : 0 < k) (hle : k ≤ chunk.length)
      (h : At cs (us ++ r.c16.toList) r.st (chunk.drop k ++ rest)) : Delivers cs us st chunk rest r

theorem At.complete {cs₁ cs₂ : List ℕ} (hcs : cs = cs₁ ++ c :: cs₂) : At cs
    (cs₁.flatMap Utf16.encode ++ [if 0x10000 ≤ c then 0xD7C0 + c / 1024 else c])
    (if 0x10000 ≤ c then 0xDC00 + c % 1024 else 0) (cs₂.flatMap encode) := by
  by_cases hlarge : 0x10000 ≤ c
  · rw [if_pos hlarge, if_pos hlarge]
    exact .pending hcs hlarge
  · have hunits : cs₁.flatMap Utf16.encode ++ [c] = (cs₁ ++ [c]).flatMap Utf16.encode := by
      rw [List.flatMap_append, List.flatMap_singleton, Utf16.encode_one (Nat.not_le.mp hlarge)]
    rw [if_neg hlarge, if_neg hlarge, hunits]
    exact .between (by rw [hcs, List.append_cons]) holds_nil (List.nil_append _)

/-- **A call**, whatever it is given of the bytes to come. -/
theorem mbrtoc16_delivers {chunk rest : List ℕ} (hcs : IsText cs) (h : At cs us st (chunk ++ rest)) :
    Delivers cs us st chunk rest (mbrtoc16 (some chunk) chunk.length st) := by
  generalize hs : chunk ++ rest = s at h
  cases h with
  | @pending cs₁ cs₂ c hcs' hc =>
    have hunits : cs₁.flatMap Utf16.encode ++ [0xD7C0 + c / 1024] ++ [0xDC00 + c % 1024] =
        (cs₁ ++ [c]).flatMap Utf16.encode := by
      rw [List.flatMap_append, List.flatMap_singleton, Utf16.encode_two hc, List.append_assoc]
      rfl
    rw [mbrtoc16_second]
    refine .second rfl (pending_low c) (fun h => h.1 rfl) ?_
    rw [hs, Option.toList_some, hunits]
    exact .between (by rw [hcs', List.append_cons]) holds_nil (List.nil_append _)
  | @between cs₁ cs₂ p s st hcs' hp hflat =>
    have hcs₂ : IsText cs₂ := fun c hc => hcs c (hcs' ▸ List.mem_append_right _ hc)
    have hbytes : ∀ b ∈ chunk, b < 256 := by
      intro b hb
      refine (hcs₂.isBytes b ?_).2
      rw [← hflat, ← hs]
      exact List.mem_append_right _ (List.mem_append_left _ hb)
    cases cs₂ with
    | nil =>
      -- nothing is left to come
      rw [List.flatMap_nil, List.append_eq_nil_iff, ← hs, List.append_eq_nil_iff] at hflat
      obtain ⟨rfl, rfl, rfl⟩ := hflat
      obtain rfl := hp.eq_zero_iff.mpr rfl
      obtain ⟨hret, hst⟩ := mbrtoc16_more (x := 0) hp.between hbytes rfl
      refine .more hret (fun h => h.1 hst) ?_
      rw [hst]
      exact .between hcs' hp rfl
    | cons c cs₂ =>
      obtain ⟨⟨hc, hscalar⟩, -⟩ := hcs₂.of_cons
      obtain ⟨hpbytes, hpcall⟩ := holds_iff.mp hp
      rw [List.flatMap_cons] at hflat
      obtain ⟨q, hq, hencode, hsplit⟩ := exists_rest hscalar hpcall hflat
      have hcomplete : ∀ t, chunk = q ++ t → t ++ rest = cs₂.flatMap encode →
          Delivers cs (cs₁.flatMap Utf16.encode) st chunk rest (mbrtoc16 (some chunk) chunk.length st) := by
        rintro t rfl ht
        obtain ⟨hret, hunit, hst⟩ := mbrtoc16_item hp.between hbytes (call_rest hscalar hpcall hencode t) hc hscalar
        refine .unit hret (List.length_pos_iff.mpr hq) (by simp) ?_
        rw [hunit, hst, List.drop_left, ht, Option.toList_some]
        exact .complete hcs'
      rw [← hs] at hsplit
      rcases List.append_eq_append_iff.mp hsplit with ⟨t, hchunk, hrest⟩ | ⟨t, hchunk, hrest⟩
      · by_cases ht : t = []
        · rw [ht, List.append_nil] at hchunk
          rw [ht, List.nil_append] at hrest
          exact hcomplete [] (by rw [hchunk, List.append_nil]) hrest
        · -- the chunk ends inside the character
          rw [hchunk] at hencode
          obtain ⟨st', hcall⟩ := call_part hscalar hpcall hencode ht
          obtain ⟨hret, hst⟩ := mbrtoc16_more hp.between hbytes hcall
          have hholds : Holds (p ++ chunk) st' := by
            refine holds_iff.mpr ⟨List.forall_mem_append.mpr ⟨hpbytes, hbytes⟩, ?_⟩
            rw [call_append, hpcall]
            dsimp only
            rw [hcall, Called.shift_more]
          refine .more hret (hst ▸ hholds.between.not_pending) ?_
          rw [hst]
          refine .between hcs' hholds ?_
          rw [List.append_assoc, hs, hflat, List.flatMap_cons]
      · exact hcomplete t hchunk hrest.symm

/-- **A chunk**, with the units of the chunks before it delivered. -/
theorem deliverChunk_at (hcs : IsText cs) (fuel : ℕ) : ∀ {chunk rest us : List ℕ} {st : ℕ},
    2 * chunk.length + (if Pending st then 1 else 0) < fuel → At cs us st (chunk ++ rest) →
      ∃ us' st', deliverChunk fuel chunk { st, units := us } = { st := st', units := us' } ∧ At cs us' st' rest ∧
        ¬Pending st' := by
  induction fuel with
  | zero => exact fun h => absurd h (Nat.not_lt_zero _)
  | succ fuel ih =>
    intro chunk rest us st hfuel h
    have hcall := mbrtoc16_delivers hcs h
    unfold deliverChunk
    dsimp only
    generalize mbrtoc16 (some chunk) chunk.length st = r at hcall ⊢
    cases hcall with
    | more hret hst hrest =>
      rw [if_neg (by omega), if_pos hret]
      exact ⟨us, r.st, rfl, hrest, hst⟩
    | second hret hst hst' hrest =>
      rw [if_neg (by omega), if_neg (by omega), if_pos hret]
      rw [if_pos hst] at hfuel
      exact ih (by rw [if_neg hst']; omega) hrest
    | @unit k hret hk hle hrest =>
      have hdrop : (if r.ret = 0 then 1 else r.ret.toNat) = k := by
        rw [if_neg (by omega)]
        omega
      rw [if_neg (by omega), if_neg (by omega), if_neg (by omega), hdrop]
      refine ih ?_ hrest
      rw [List.length_drop]
      split_ifs at hfuel ⊢ <;> omega

/-- At the end everything is delivered. -/
theorem At.end_eq (hcs : IsText cs) (h : At cs us st []) (hst : ¬Pending st) : us = cs.flatMap Utf16.encode ∧ st = 0 := by
  generalize hs : ([] : List ℕ) = s at h
  cases h with
  | @pending cs₁ cs₂ c hcs' hc => exact absurd (pending_low c) hst
  | @between cs₁ cs₂ p s st hcs' hp hflat =>
    subst hs
    cases cs₂ with
    | nil =>
      rw [List.append_nil] at hflat hcs'
      exact ⟨by rw [hcs'], hp.eq_zero_iff.mpr hflat⟩
    | cons c cs₂ =>
      have hscalar := (hcs c (hcs' ▸ List.mem_append_right _ List.mem_cons_self)).2
      rw [List.flatMap_cons] at hflat
      obtain ⟨q, hq, -, hnil⟩ := exists_rest hscalar (holds_iff.mp hp).2 hflat
      exact absurd (List.append_eq_nil_iff.mp hnil.symm).1 hq

/-- **The units of a text** are delivered, however its bytes are cut. -/
theorem deliver_text {chunks : List (List ℕ)} (hcs : IsText cs) (h : chunks.flatten = cs.flatMap encode) :
    deliver chunks = { st := 0, units := cs.flatMap Utf16.encode } := by
  have hrun : ∀ (chunks : List (List ℕ)) (us : List ℕ) (st : ℕ), At cs us st chunks.flatten → ¬Pending st →
      ∃ us' st', chunks.foldl (fun f chunk => if f.failed then f else deliverChunk (2 * chunk.length + 2) chunk f)
        { st, units := us } = { st := st', units := us' } ∧ At cs us' st' [] ∧ ¬Pending st' := by
    intro chunks
    induction chunks with
    | nil => exact fun us st h hst => ⟨us, st, rfl, h, hst⟩
    | cons chunk chunks ih =>
      intro us st h hst
      have hfuel : 2 * chunk.length + (if Pending st then 1 else 0) < 2 * chunk.length + 2 := by
        rw [if_neg hst]
        omega
      rw [List.flatten_cons] at h
      obtain ⟨us', st', hchunk, hrest, hst'⟩ := deliverChunk_at hcs _ hfuel h
      rw [List.foldl_cons, if_neg Bool.false_ne_true, hchunk]
      exact ih us' st' hrest hst'
  obtain ⟨us, st, hdeliver, hend, hst⟩ := hrun chunks [] 0
    (h ▸ .between (List.nil_append cs).symm holds_nil (List.nil_append _)) fun h => h.1 rfl
  obtain ⟨rfl, rfl⟩ := hend.end_eq hcs hst
  exact hdeliver

/-- **The conversions are inverse.**  A text whose bytes are given to `mbrtoc16` in any pieces comes out as the units that
`c16rtomb` turns into these bytes, and both end in the initial state; and `c16rtomb` takes the well-formed sequences of
units, and no others. -/
theorem utf16_inverse :
    (∀ (cs : List ℕ) (chunks : List (List ℕ)), IsText cs → chunks.flatten = cs.flatMap encode →
      deliver chunks = { st := 0, units := cs.flatMap Utf16.encode } ∧
        c16rtombs (deliver chunks).units 0 = some (chunks.flatten, 0)) ∧
    ∀ us : List ℕ, (∀ u ∈ us, u < 2 ^ 16) → ((∃ bs, c16rtombs us 0 = some (bs, 0)) ↔ Utf16.WellFormed us) := by
  constructor
  · intro cs chunks hcs h
    have hdeliver := deliver_text hcs h
    refine ⟨hdeliver, ?_⟩
    rw [hdeliver, h]
    exact c16rtombs_encode fun c hc => (hcs c hc).2
  · exact fun us hus => c16rtombs_iff hus

/-- A character of four bytes, cut behind its first byte. -/
theorem utf16_inverse_emoji : deliver [[0xF0], [0x9F, 0x98], [], [0x80]] = { st := 0, units := [0xD83D, 0xDE00] } ∧
    c16rtombs (deliver [[0xF0], [0x9F, 0x98], [], [0x80]]).units 0 = some ([0xF0, 0x9F, 0x98, 0x80], 0) :=
  utf16_inverse.1 [0x1F600] [[0xF0], [0x9F, 0x98], [], [0x80]] (by unfold IsText; decide) (by decide)

end OrbisCompat.Wchar
