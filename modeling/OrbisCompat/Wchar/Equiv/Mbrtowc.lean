import OrbisCompat.Wchar.Equiv.Utf8
import OrbisCompat.Wchar.Mbrtowc

/-!
# `mbrtowc` does not mind where its input is cut

Behind the second byte the offset in the top bits of the state lets through every continuation byte and nothing else
(`Mid.oob`), as the test between two bytes of one call does.  So a call over a chunk does what the table machine does byte
by byte (`mbrtowc_call`), and a string is converted alike however it is cut (`feed_cut`).
-/

namespace OrbisCompat.Wchar

open Chunked Utf8

variable {b c st N d : ℕ} {s : List ℕ}

/-- What one byte does to the table machine. -/
def push (st b : ℕ) : Pushed ℕ ℕ :=
  if st = 0 then
    if b < 0x80 then .item b
    else if Word32.sub b SA > SB - SA then .bad
    else .more (bittab.getD (b - SA) 0)
  else if OOB st b ≠ 0 then .bad
  else
    let c := Word32.shl st 6 ||| Word32.sub b 0x80
    if c &&& 2 ^ 31 = 0 then .item c else .more c

/-! ### The states -/

/-- The states behind the second byte and before the last. -/
inductive Mid : ℕ → Prop
  | three {x t : ℕ} (hx : x < 16) (ht : t < 64) : Mid (0xC0000000 + x * 64 + t)
  | four {x t : ℕ} (hx : x < 5) (ht : t < 64) : Mid (0xC3000000 + x * 64 + t)
  | last {x t u : ℕ} (hx : x < 5) (ht : t < 64) (hu : u < 64) : Mid (0xC0000000 + (x * 64 + t) * 64 + u)

/-- The states inside a character. -/
inductive Inside : ℕ → Prop
  | lead {i : ℕ} (hi : i < 51) : Inside (bittab.getD i 0)
  | mid {c : ℕ} (h : Mid c) : Inside c

theorem Inside.ne_zero (h : Inside c) : c ≠ 0 := by
  cases h with
  | lead hi => exact entry_ne_zero _ hi
  | mid h => cases h <;> omega

/-- The offset of a state behind the second byte. -/
theorem Mid.sar (h : Mid c) : Word32.sar c 26 = 2 ^ 32 - 16 := by
  unfold Word32.sar
  rw [Nat.shiftRight_eq_div_pow]
  cases h with
  | three hx ht => rw [if_neg (by omega)]; omega
  | four hx ht => rw [if_neg (by omega)]; omega
  | last hx ht hu => rw [if_neg (by omega)]; omega

/-- **The offset is that of the lead bytes that any continuation byte may follow.** -/
theorem Mid.oob (h : Mid c) (hb : b < 256) : OOB c b = 0 ↔ Trail b := by
  have hfirst : Word32.sar (bittab.getD 0 0) 26 = 2 ^ 32 - 16 := by decide +kernel
  have hsame : OOB c b = OOB (bittab.getD 0 0) b := by
    unfold OOB
    rw [h.sar, hfirst]
  have hsecond : Second 0xC2 b ↔ Trail b := by
    unfold Second Trail
    simp
  rw [hsame, oob_entry 0 (by norm_num) b hb, hsecond]

/-- The bytes that may come next are continuation bytes. -/
theorem Inside.trail (h : Inside c) (hb : b < 256) (hoob : OOB c b = 0) : Trail b := by
  cases h with
  | lead hi => exact second_trail ((oob_entry _ hi b hb).mp hoob)
  | mid h => exact (h.oob hb).mp hoob

/-- **One more byte** completes the character, or leads to a state behind the second byte. -/
theorem Inside.next (h : Inside c) (hb : b < 256) (hoob : OOB c b = 0)
    (hmore : (Word32.shl c 6 ||| Word32.sub b 0x80) &&& 2 ^ 31 ≠ 0) :
    Mid (Word32.shl c 6 ||| Word32.sub b 0x80) := by
  have htrail := h.trail hb hoob
  rw [shift_in htrail] at hmore ⊢
  unfold Trail at htrail
  have ht : b - 0x80 < 64 := by omega
  rw [ne_eq, Word32.and_two_pow_eq_zero] at hmore
  -- the index of an entry says how many bytes belong to the character
  cases h with
  | @lead i hi =>
    by_cases htwo : i < 30
    · rw [(entry_two i htwo).1] at hmore
      omega
    by_cases hthree : i < 46
    · obtain ⟨x, rfl⟩ := Nat.exists_eq_add_of_le (Nat.not_lt.mp htwo)
      rw [(entry_three x (by omega)).1]
      exact .three (by omega) ht
    · obtain ⟨x, rfl⟩ := Nat.exists_eq_add_of_le (Nat.not_lt.mp hthree)
      rw [(entry_four x (by omega)).1]
      exact .four (by omega) ht
  | mid h =>
    cases h with
    | three hx ht' =>
      rw [(shl_state_three hx ht').2] at hmore
      omega
    | four hx ht' =>
      rw [(shl_state_four hx ht' ht).2.1]
      exact .last hx ht' ht
    | last hx ht' hu =>
      rw [(shl_state_four hx ht' hu).2.2.2] at hmore
      omega

/-! ### Calls -/

/-- Between two bytes of one call, the test is the one that the next call would make. -/
theorem mbrLoop_eq_rest (h : Mid c) (hs : ∀ b ∈ s, b < 256) :
    (if s.length ≠ 0 ∧ Word32.sub (s.headD 0) 0x80 ≥ 0x40 then mbrIlseq else mbrLoop N c s s.length) =
      mbrRest N c s s.length := by
  unfold mbrRest
  cases s with
  | nil => rfl
  | cons b s =>
    have hb := hs b List.mem_cons_self
    have htest : Word32.sub b 0x80 ≥ 0x40 ↔ OOB c b ≠ 0 := by
      rw [test_trail hb, ne_eq, h.oob hb]
    exact if_congr (and_congr_right fun _ => htest) rfl rfl

/-- A character that is complete with `n` bytes left. -/
theorem called_done (n d : ℕ) (c : ℕ) : Mbrtowc.called { ret := ((n + 1 + d : ℕ) : ℤ) - n, wc := some c, st := 0 } =
    (Called.item c 1 0).shift d := by
  have hret : ((n + 1 + d : ℕ) : ℤ) - n = (1 + d : ℕ) := by omega
  unfold Mbrtowc.called Called.shift
  dsimp only
  rw [hret, if_neg (by omega), if_neg (by omega), if_neg (by omega)]
  rfl

/-- Inside a character. -/
theorem mbrRest_call (s : List ℕ) : ∀ {c d : ℕ}, Inside c → (∀ b ∈ s, b < 256) →
    (mbrRest (s.length + d) c s s.length).called = (call push 0 c s).shift d := by
  -- the `d` bytes of the call before are what the result counts besides
  induction s with
  | nil => exact fun _ _ => rfl
  | cons b s ih =>
    intro c d hc hs
    obtain ⟨hb, hs⟩ := List.forall_mem_cons.mp hs
    unfold mbrRest call push
    rw [if_neg hc.ne_zero, List.headD_cons]
    by_cases hoob : OOB c b = 0
    · -- the check at the start of a call is passed, and the loop entered
      rw [if_neg (fun h => h.2 hoob), if_neg (not_not.mpr hoob), List.length_cons, mbrLoop]
      dsimp only
      rw [List.headD_cons, List.tail_cons]
      by_cases hdone : (Word32.shl c 6 ||| Word32.sub b 0x80) &&& 2 ^ 31 = 0
      · rw [if_pos hdone, if_pos hdone]
        exact called_done _ _ _
      · have hlen : s.length + 1 + d = s.length + (1 + d) := Nat.add_assoc _ _ _
        have hmid := hc.next hb hoob hdone
        rw [if_neg hdone, if_neg hdone, mbrLoop_eq_rest hmid hs, hlen, ih (.mid hmid) hs]
        exact (Called.shift_shift _ _ _).symm
    · rw [if_pos ⟨Nat.succ_ne_zero _, hoob⟩, if_pos hoob]
      rfl

/-- The states between two calls. -/
def Between (st : ℕ) : Prop := st = 0 ∨ Inside st

/-- **A call** over a chunk does what the table machine does. -/
theorem mbrtowc_call (hst : Between st) (hs : ∀ b ∈ s, b < 256) :
    (mbrtowc (some s) s.length st).called = call push 0 st s := by
  cases s with
  | nil => rfl
  | cons b s =>
    obtain ⟨hb, hs'⟩ := List.forall_mem_cons.mp hs
    have hne : (b :: s).length ≠ 0 := Nat.succ_ne_zero _
    unfold mbrtowc
    dsimp only
    rw [if_neg hne, List.headD_cons]
    rcases hst with rfl | hinside
    · rw [if_pos rfl, call, push, if_pos rfl]
      by_cases hascii : b < 0x80
      · rw [if_pos hascii, if_pos hascii]
        by_cases hzero : b = 0
        · rw [hzero]
          rfl
        · rw [if_pos hzero]
          rfl
      · rw [if_neg hascii, if_neg hascii]
        by_cases hlead : Word32.sub b SA > SB - SA
        · rw [if_pos hlead, if_pos hlead]
          rfl
        · rw [if_neg hlead, if_neg hlead]
          have hentry : Inside (bittab.getD (b - SA) 0) := by
            rw [test_lead hb, not_not] at hlead
            exact .lead (by unfold SA; omega)
          exact mbrRest_call s hentry hs'
    · rw [if_neg hinside.ne_zero]
      exact (mbrRest_call (d := 0) (b :: s) hinside hs).trans (Called.shift_zero _)

/-- The states between two calls are closed under bytes. -/
theorem Between.push {st' : ℕ} (hst : Between st) (hb : b < 256) (h : push st b = .more st') : Between st' := by
  unfold Wchar.push at h
  rcases hst with rfl | hinside
  · rw [if_pos rfl] at h
    split_ifs at h with hascii hlead
    injection h with h
    rw [test_lead hb, not_not] at hlead
    rw [← h]
    exact Or.inr (.lead (by unfold SA; omega))
  · rw [if_neg hinside.ne_zero] at h
    dsimp only at h
    split_ifs at h with hoob hdone
    injection h with h
    rw [← h]
    exact Or.inr (.mid (hinside.next hb (not_not.mp hoob) hdone))

/-- `mbrtowc` is the table machine. -/
theorem mbrtowc_refines :
    Refines (fun chunk st => (mbrtowc (some chunk) chunk.length st).called) push 0 (· < 256) Between where
  init := Or.inl rfl
  more hst hb h := hst.push hb h
  conv hst hs := mbrtowc_call hst hs

/-! ### The initial state -/

theorem mbrLoop_st (n : ℕ) : ∀ {N c : ℕ} {s : List ℕ}, (mbrLoop N c s n).ret ≠ -2 →
    (mbrLoop N c s n).st = 0 := by
  induction n with
  | zero => exact fun h => absurd rfl h
  | succ n ih =>
    intro N c s h
    unfold mbrLoop at h ⊢
    dsimp only at h ⊢
    split_ifs at h ⊢
    · rfl
    · rfl
    · exact ih h

theorem mbrRest_st {n : ℕ} (h : (mbrRest N c s n).ret ≠ -2) : (mbrRest N c s n).st = 0 := by
  unfold mbrRest at h ⊢
  split_ifs at h ⊢
  · rfl
  · exact mbrLoop_st n h

/-- **The state** is left at `0`, unless a character is not complete. -/
theorem mbrtowc_st (src : Option (List ℕ)) (n st : ℕ) (h : (mbrtowc src n st).ret ≠ -2) :
    (mbrtowc src n st).st = 0 := by
  unfold mbrtowc at h ⊢
  cases src with
  | none =>
    dsimp only at h ⊢
    split_ifs at h ⊢ with hst
    · rfl
    · exact not_not.mp hst
  | some s =>
    dsimp only at h ⊢
    by_cases hn : n = 0
    · rw [if_pos hn] at h
      exact absurd rfl h
    rw [if_neg hn] at h ⊢
    by_cases hst : st = 0
    · rw [if_pos hst] at h ⊢
      by_cases hascii : s.headD 0 < 0x80
      · rw [if_pos hascii]
        exact hst
      rw [if_neg hascii] at h ⊢
      by_cases hlead : Word32.sub (s.headD 0) SA > SB - SA
      · rw [if_pos hlead]
        rfl
      · rw [if_neg hlead] at h ⊢
        exact mbrRest_st h
    · rw [if_neg hst] at h ⊢
      exact mbrRest_st h

/-- **Where a string is cut does not matter**: a caller gets the same characters, stops at the same place if at all, and
has the same state; and a call leaves the initial state unless it returns `(size_t)-2`. -/
theorem feed_cut (chunks : List (List ℕ)) (hbytes : ∀ chunk ∈ chunks, ∀ b ∈ chunk, b < 256) :
    feed chunks = feed [chunks.flatten] ∧
      ∀ src n st, (mbrtowc src n st).ret ≠ -2 → (mbrtowc src n st).st = 0 :=
  ⟨mbrtowc_refines.feed_flatten hbytes, mbrtowc_st⟩

/-- The euro sign in three pieces, with an empty one, and then half a surrogate. -/
theorem feed_cut_euro : feed [[0x41, 0xE2], [], [0x82], [0xAC, 0xED], [0xA0, 0x80]] =
      feed [[0x41, 0xE2, 0x82, 0xAC, 0xED, 0xA0, 0x80]] ∧
    ∀ src n st, (mbrtowc src n st).ret ≠ -2 → (mbrtowc src n st).st = 0 :=
  feed_cut [[0x41, 0xE2], [], [0x82], [0xAC, 0xED], [0xA0, 0x80]] (by decide)

/-- The surrogate is refused at its second byte, behind the four bytes before it. -/
example : feed [[0x41, 0xE2], [], [0x82], [0xAC, 0xED], [0xA0, 0x80]] = ⟨0, [0x41, 0x20AC], 4, 0, true⟩ := by
  decide +kernel

end OrbisCompat.Wchar
