import OrbisCompat.Wchar.Equiv.Mbrtowc

/-!
# The table machine reads UTF-8

From the initial state, the bytes of a row of the table of well-formed sequences complete its character
(`call_encoded`), and nothing else completes one (`encoded_of_call`).  So a state that is not initial stands for the
bytes that led to it (`Holds`), and these and the next bytes make up a character exactly when a call completes one
(`completed_iff`).
-/

namespace OrbisCompat.Wchar

open Chunked Utf8

variable {b c i k st x t u : ℕ} {p s l rest : List ℕ}

/-! ### The rows -/

theorem push_ascii (h : b < 0x80) : push 0 b = .item b := by
  unfold push
  rw [if_pos rfl, if_pos h]

theorem push_lead (hi : i < 51) : push 0 (0xC2 + i) = .more (bittab.getD i 0) := by
  have hlead : ¬Word32.sub (0xC2 + i) SA > SB - SA := by
    rw [test_lead (by omega), not_not]
    omega
  unfold push
  rw [if_pos rfl, if_neg (by omega), if_neg hlead, SA, Nat.add_sub_cancel_left]

theorem push_not_lead (hb : b < 256) (hascii : ¬b < 0x80) (hlead : ¬(0xC2 ≤ b ∧ b < 0xF5)) : push 0 b = .bad := by
  unfold push
  rw [if_pos rfl, if_neg hascii, if_pos ((test_lead hb).mpr hlead)]

theorem push_oob (h : Inside c) (hoob : OOB c b ≠ 0) : push c b = .bad := by
  unfold push
  rw [if_neg h.ne_zero, if_pos hoob]

/-- A byte that may come next. -/
theorem push_next (h : Inside c) (hb : b < 256) (hoob : OOB c b = 0) : push c b =
    if Word32.shl c 6 + (b - 0x80) &&& 2 ^ 31 = 0 then .item (Word32.shl c 6 + (b - 0x80))
    else .more (Word32.shl c 6 + (b - 0x80)) := by
  unfold push
  rw [if_neg h.ne_zero, if_neg (not_not.mpr hoob), shift_in (h.trail hb hoob)]

/-- The byte behind the lead byte at entry `i`. -/
theorem push_second (hi : i < 51) (h : Second (0xC2 + i) b) : push (bittab.getD i 0) b =
    if Word32.shl (bittab.getD i 0) 6 + (b - 0x80) &&& 2 ^ 31 = 0 then
      .item (Word32.shl (bittab.getD i 0) 6 + (b - 0x80))
    else .more (Word32.shl (bittab.getD i 0) 6 + (b - 0x80)) := by
  have hb : b < 256 := (second_trail h).2.trans (by norm_num)
  exact push_next (.lead hi) hb ((oob_entry i hi b hb).mpr h)

/-- A byte behind the second one. -/
theorem push_mid (h : Mid c) (hb : Trail b) : push c b =
    if Word32.shl c 6 + (b - 0x80) &&& 2 ^ 31 = 0 then .item (Word32.shl c 6 + (b - 0x80))
    else .more (Word32.shl c 6 + (b - 0x80)) := by
  have hlt : b < 256 := hb.2.trans (by norm_num)
  exact push_next (.mid h) hlt ((h.oob hlt).mpr hb)

theorem Trail.sub_lt (h : Trail b) : b - 0x80 < 64 := by
  unfold Trail at h
  omega

theorem push_two (hx : x < 30) (h : Second (0xC2 + x) b) :
    push (bittab.getD x 0) b = .item ((x + 2) * 64 + (b - 0x80)) := by
  have ht := Trail.sub_lt (second_trail h)
  rw [push_second (by omega) h, (entry_two x hx).1, if_pos (Word32.and_two_pow_eq_zero.mpr (by omega))]

theorem push_three (hx : x < 16) (h : Second (0xE0 + x) b) :
    push (bittab.getD (30 + x) 0) b = .more (0xC0000000 + x * 64 + (b - 0x80)) := by
  have ht := Trail.sub_lt (second_trail h)
  have hlead : 0xE0 + x = 0xC2 + (30 + x) := by omega
  rw [push_second (by omega) (hlead ▸ h), (entry_three x hx).1, if_neg (shl_state_three hx ht).1]

theorem push_three_last (hx : x < 16) (ht : t < 64) (h : Trail b) :
    push (0xC0000000 + x * 64 + t) b = .item ((x * 64 + t) * 64 + (b - 0x80)) := by
  have hb := Trail.sub_lt h
  rw [push_mid (.three hx ht) h, (shl_state_three hx ht).2, if_pos (Word32.and_two_pow_eq_zero.mpr (by omega))]

theorem push_four (hx : x < 5) (h : Second (0xF0 + x) b) :
    push (bittab.getD (46 + x) 0) b = .more (0xC3000000 + x * 64 + (b - 0x80)) := by
  have ht := Trail.sub_lt (second_trail h)
  have hlead : 0xF0 + x = 0xC2 + (46 + x) := by omega
  rw [push_second (by omega) (hlead ▸ h), (entry_four x hx).1, if_neg (shl_state_four hx ht ht).1]

theorem push_four_next (hx : x < 5) (ht : t < 64) (h : Trail b) :
    push (0xC3000000 + x * 64 + t) b = .more (0xC0000000 + (x * 64 + t) * 64 + (b - 0x80)) := by
  obtain ⟨-, hshl, hmore, -⟩ := shl_state_four hx ht (Trail.sub_lt h)
  rw [push_mid (.four hx ht) h, hshl, if_neg hmore]

theorem push_four_last (hx : x < 5) (ht : t < 64) (hu : u < 64) (h : Trail b) :
    push (0xC0000000 + (x * 64 + t) * 64 + u) b = .item (((x * 64 + t) * 64 + u) * 64 + (b - 0x80)) := by
  have hb := Trail.sub_lt h
  rw [push_mid (.last hx ht hu) h, (shl_state_four hx ht hu).2.2.2,
    if_pos (Word32.and_two_pow_eq_zero.mpr (by omega))]

/-! ### Characters -/

/-- **An encoded character** is read. -/
theorem call_encoded (h : Encoded c l) : call push 0 0 (l ++ rest) = .item c l.length 0 := by
  cases h with
  | one h => exact call_cons_item (push_ascii h) rest
  | @two b b₁ h h₁ =>
    obtain ⟨x, rfl⟩ := Nat.exists_eq_add_of_le h.1
    have hx : 0xC2 + x - 0xC0 = x + 2 := by omega
    rw [hx]
    simp only [List.cons_append, List.nil_append]
    rw [call_cons_more (push_lead (by omega)), call_cons_item (push_two (by omega) h₁)]
    rfl
  | @three b b₁ b₂ h h₁ h₂ =>
    obtain ⟨x, rfl⟩ := Nat.exists_eq_add_of_le h.1
    have hx : x < 16 := by omega
    have hlead : 0xE0 + x = 0xC2 + (30 + x) := by omega
    have hfirst : push 0 (0xE0 + x) = .more (bittab.getD (30 + x) 0) := by
      rw [hlead]
      exact push_lead (by omega)
    simp only [List.cons_append, List.nil_append, Nat.add_sub_cancel_left]
    rw [call_cons_more hfirst, call_cons_more (push_three hx h₁),
      call_cons_item (push_three_last hx (Trail.sub_lt (second_trail h₁)) h₂)]
    rfl
  | @four b b₁ b₂ b₃ h h₁ h₂ h₃ =>
    obtain ⟨x, rfl⟩ := Nat.exists_eq_add_of_le h.1
    have hx : x < 5 := by omega
    have ht := Trail.sub_lt (second_trail h₁)
    have hlead : 0xF0 + x = 0xC2 + (46 + x) := by omega
    have hfirst : push 0 (0xF0 + x) = .more (bittab.getD (46 + x) 0) := by
      rw [hlead]
      exact push_lead (by omega)
    simp only [List.cons_append, List.nil_append, Nat.add_sub_cancel_left]
    rw [call_cons_more hfirst, call_cons_more (push_four hx h₁), call_cons_more (push_four_next hx ht h₂),
      call_cons_item (push_four_last hx ht (Trail.sub_lt h₂) h₃)]
    rfl

/-- Inside a character only a byte that the state allows leads on. -/
theorem Inside.byte_of_item (hx : Inside x) (hs : ∀ b ∈ s, b < 256) (h : call push 0 x s = .item c k st) :
    ∃ b s', s = b :: s' ∧ b < 256 ∧ (∀ b ∈ s', b < 256) ∧ OOB x b = 0 := by
  cases s with
  | nil => cases h
  | cons b s =>
    rw [List.forall_mem_cons] at hs
    refine ⟨b, s, rfl, hs.1, hs.2, ?_⟩
    by_contra hoob
    rw [call_cons_bad (push_oob hx hoob)] at h
    cases h

/-- The third byte of three. -/
theorem third_of_three (hx : x < 16) (ht : t < 64) (hs : ∀ b ∈ s, b < 256)
    (h : call push 0 (0xC0000000 + x * 64 + t) s = .item c k st) :
    ∃ b s', s = b :: s' ∧ Trail b ∧ c = (x * 64 + t) * 64 + (b - 0x80) ∧ k = 1 := by
  have hmid : Mid (0xC0000000 + x * 64 + t) := .three hx ht
  obtain ⟨b, s, rfl, hb, -, hoob⟩ := (Inside.mid hmid).byte_of_item hs h
  have htrail : Trail b := (hmid.oob hb).mp hoob
  rw [call_cons_item (push_three_last hx ht htrail)] at h
  injection h with hc hk
  exact ⟨b, s, rfl, htrail, hc.symm, hk.symm⟩

/-- The third and the fourth byte of four. -/
theorem third_of_four (hx : x < 5) (ht : t < 64) (hs : ∀ b ∈ s, b < 256)
    (h : call push 0 (0xC3000000 + x * 64 + t) s = .item c k st) :
    ∃ b b' s', s = b :: b' :: s' ∧ Trail b ∧ Trail b' ∧ c = ((x * 64 + t) * 64 + (b - 0x80)) * 64 + (b' - 0x80) ∧ k = 2 := by
  have hmid : Mid (0xC3000000 + x * 64 + t) := .four hx ht
  obtain ⟨b, s, rfl, hb, hs, hoob⟩ := (Inside.mid hmid).byte_of_item hs h
  have htrail : Trail b := (hmid.oob hb).mp hoob
  have hlast : Mid (0xC0000000 + (x * 64 + t) * 64 + (b - 0x80)) := .last hx ht (Trail.sub_lt htrail)
  rw [call_cons_more (push_four_next hx ht htrail), Called.shift_eq_item] at h
  obtain ⟨j, h, rfl⟩ := h
  obtain ⟨b', s, rfl, hb', -, hoob'⟩ := (Inside.mid hlast).byte_of_item hs h
  have htrail' : Trail b' := (hlast.oob hb').mp hoob'
  rw [call_cons_item (push_four_last hx ht (Trail.sub_lt htrail) htrail')] at h
  injection h with hc hj
  exact ⟨b, b', s, rfl, htrail, htrail', hc.symm, by rw [← hj]⟩

/-- **Nothing else** is read. -/
theorem encoded_of_call (hs : ∀ b ∈ s, b < 256) (h : call push 0 0 s = .item c k st) : Encoded c (s.take k) := by
  cases s with
  | nil => cases h
  | cons b s =>
    rw [List.forall_mem_cons] at hs
    obtain ⟨hb, hs⟩ := hs
    by_cases hascii : b < 0x80
    · rw [call_cons_item (push_ascii hascii)] at h
      cases h
      exact .one hascii
    by_cases hlead : ¬(0xC2 ≤ b ∧ b < 0xF5)
    · rw [call_cons_bad (push_not_lead hb hascii hlead)] at h
      cases h
    obtain ⟨i, rfl⟩ := Nat.exists_eq_add_of_le (not_not.mp hlead).1
    have hi : i < 51 := by omega
    rw [call_cons_more (push_lead hi), Called.shift_eq_item] at h
    obtain ⟨j, h, rfl⟩ := h
    obtain ⟨b₁, s, rfl, hb₁, hs, hoob⟩ := (Inside.lead hi).byte_of_item hs h
    have h₁ : Second (0xC2 + i) b₁ := (oob_entry i hi b₁ hb₁).mp hoob
    have ht := Trail.sub_lt (second_trail h₁)
    -- the index of the entry says how many bytes follow
    by_cases htwo : i < 30
    · rw [call_cons_item (push_two htwo h₁)] at h
      injection h with hc hj
      have hx : i + 2 = 0xC2 + i - 0xC0 := by omega
      rw [← hc, ← hj, hx]
      exact .two (by omega) h₁
    by_cases hthree : i < 46
    · obtain ⟨x, rfl⟩ := Nat.exists_eq_add_of_le (Nat.not_lt.mp htwo)
      have hlead : 0xC2 + (30 + x) = 0xE0 + x := by omega
      have hx : x < 16 := by omega
      rw [hlead] at h₁ ⊢
      rw [call_cons_more (push_three hx h₁), Called.shift_eq_item] at h
      obtain ⟨j, h, rfl⟩ := h
      obtain ⟨b₂, s, rfl, h₂, hc, rfl⟩ := third_of_three hx ht hs h
      rw [hc]
      simpa using Encoded.three (b := 0xE0 + x) (by omega) h₁ h₂
    · obtain ⟨x, rfl⟩ := Nat.exists_eq_add_of_le (Nat.not_lt.mp hthree)
      have hlead : 0xC2 + (46 + x) = 0xF0 + x := by omega
      have hx : x < 5 := by omega
      rw [hlead] at h₁ ⊢
      rw [call_cons_more (push_four hx h₁), Called.shift_eq_item] at h
      obtain ⟨j, h, rfl⟩ := h
      obtain ⟨b₂, b₃, s, rfl, h₂, h₃, hc, rfl⟩ := third_of_four hx ht hs h
      rw [hc]
      simpa using Encoded.four (b := 0xF0 + x) (by omega) h₁ h₂ h₃

/-! ### What a state stands for -/

/-- `mbrtowc` has read the bytes `p` of a character that is not complete, and has left the state `st`. -/
def Holds (p : List ℕ) (st : ℕ) : Prop :=
  (∀ b ∈ p, b < 256) ∧ (mbrtowc (some p) p.length 0).ret = -2 ∧ (mbrtowc (some p) p.length 0).st = st

instance (p : List ℕ) (st : ℕ) : Decidable (Holds p st) := inferInstanceAs (Decidable (_ ∧ _))

/-- The bytes `p` and the first bytes of `s` make up a character. -/
def Completed (p s : List ℕ) : Prop := ∃ c l, Encoded c (p ++ l) ∧ l <+: s

theorem called_eq_more {r : Mbrtowc} : r.called = .more st ↔ r.ret = -2 ∧ r.st = st := by
  unfold Mbrtowc.called
  split_ifs with hmore hbad
  · simp [hmore]
  · simp [hbad]
  · simp [hmore]

theorem holds_iff : Holds p st ↔ (∀ b ∈ p, b < 256) ∧ call push 0 0 p = .more st := by
  unfold Holds
  refine and_congr_right fun hp => ?_
  rw [← called_eq_more, mbrtowc_call (Or.inl rfl) hp]

theorem holds_nil : Holds [] 0 := holds_iff.mpr ⟨by simp, rfl⟩

/-- What a call leaves unfinished. -/
theorem inside_of_call (hst : Between st) (hs : ∀ b ∈ s, b < 256) (h : call push 0 st s = .more x) :
    s = [] ∧ x = st ∨ Inside x := by
  induction s generalizing st x with
  | nil =>
    injection h with h
    exact Or.inl ⟨rfl, h.symm⟩
  | cons b s ih =>
    rw [List.forall_mem_cons] at hs
    obtain ⟨hb, hs⟩ := hs
    refine Or.inr ?_
    cases hpush : push st b with
    | item c =>
      rw [call_cons_item hpush] at h
      cases h
    | bad =>
      rw [call_cons_bad hpush] at h
      cases h
    | more st₁ =>
      have hst₁ := hst.push hb hpush
      have hne : st₁ ≠ 0 := by
        -- a byte does not lead back to the initial state
        rintro rfl
        unfold push at hpush
        dsimp only at hpush
        split_ifs at hpush with _ _ hlead _ hdone
        · injection hpush with hz
          rw [test_lead hb, not_not] at hlead
          exact entry_ne_zero _ (by unfold SA; omega) hz
        · injection hpush with hz
          rw [hz] at hdone
          exact hdone (Nat.zero_and _)
      have hin : Inside st₁ := hst₁.resolve_left hne
      rw [call_cons_more hpush] at h
      cases hcall : call push 0 st₁ s with
      | more st₂ =>
        rw [hcall] at h
        injection h with h
        subst h
        rcases ih hst₁ hs hcall with ⟨-, rfl⟩ | hx
        · exact hin
        · exact hx
      | item c k st₂ =>
        rw [hcall] at h
        cases h
      | bad st₂ =>
        rw [hcall] at h
        cases h

theorem Holds.bytes (h : Holds p st) : ∀ b ∈ p, b < 256 := h.1

theorem Holds.inside (h : Holds p st) : p = [] ∧ st = 0 ∨ Inside st := by
  obtain ⟨hp, hcall⟩ := holds_iff.mp h
  exact inside_of_call (Or.inl rfl) hp hcall

theorem Holds.between (h : Holds p st) : Between st := h.inside.imp_left And.right

theorem Holds.eq_zero_iff (h : Holds p st) : st = 0 ↔ p = [] := by
  constructor
  · rintro rfl
    rcases h.inside with ⟨hp, -⟩ | hin
    · exact hp
    · exact absurd rfl hin.ne_zero
  · rintro rfl
    rw [holds_iff] at h
    injection h.2 with h
    exact h.symm

/-- **Every state** that calls of `mbrtowc` leave is the initial one or holds bytes. -/
theorem exists_holds {chunks : List (List ℕ)} (hbytes : ∀ chunk ∈ chunks, ∀ b ∈ chunk, b < 256) :
    ∃ p, Holds p (feed chunks).st := by
  have hrun : ∀ (s : List ℕ) (f : Fed ℕ ℕ), (∀ b ∈ s, b < 256) → (∃ p, Holds p f.st) →
      ∃ p, Holds p (s.foldl (feedOne push 0) f).st := by
    intro s
    induction s with
    | nil => exact fun f _ hf => hf
    | cons b s ih =>
      intro f hs hf
      rw [List.forall_mem_cons] at hs
      obtain ⟨hb, hs⟩ := hs
      refine ih _ hs ?_
      unfold feedOne
      split_ifs
      · exact hf
      cases hpush : push f.st b with
      | item c => exact ⟨[], holds_nil⟩
      | bad => exact ⟨[], holds_nil⟩
      | more st =>
        obtain ⟨p, hp⟩ := hf
        rw [holds_iff] at hp
        refine ⟨p ++ [b], holds_iff.mpr ⟨?_, ?_⟩⟩
        · simpa [or_imp, forall_and] using ⟨hp.1, hb⟩
        · rw [call_append, hp.2]
          dsimp only
          rw [call_cons_more hpush]
          rfl
  unfold feed
  rw [mbrtowc_refines.feed_eq hbytes]
  refine hrun _ _ ?_ ⟨[], holds_nil⟩
  intro b hb
  obtain ⟨chunk, hchunk, hb⟩ := List.mem_flatten.mp hb
  exact hbytes chunk hchunk b hb

/-- **A call** completes the character that the state holds exactly when the next bytes do. -/
theorem completed_iff (hp : Holds p st) (hs : ∀ b ∈ s, b < 256) :
    Completed p s ↔ ∃ c k, call push 0 st s = .item c k 0 := by
  obtain ⟨hpb, hcall⟩ := holds_iff.mp hp
  have happ : call push 0 0 (p ++ s) = (call push 0 st s).shift p.length := by
    rw [call_append, hcall]
  have hbytes : ∀ b ∈ p ++ s, b < 256 := List.forall_mem_append.mpr ⟨hpb, hs⟩
  constructor
  · rintro ⟨c, l, henc, t, rfl⟩
    rw [← List.append_assoc, call_encoded henc] at happ
    cases hrest : call push 0 st (l ++ t) with
    | item c' k st' => exact ⟨c', k, by rw [(call_item hrest).2.2]⟩
    | more st' =>
      rw [hrest] at happ
      cases happ
    | bad st' =>
      rw [hrest] at happ
      cases happ
  · rintro ⟨c, k, hitem⟩
    rw [hitem, Called.shift_item] at happ
    refine ⟨c, s.take k, ?_, List.take_prefix _ _⟩
    have henc := encoded_of_call hbytes happ
    rwa [Nat.add_comm, List.take_length_add_append] at henc

end OrbisCompat.Wchar
