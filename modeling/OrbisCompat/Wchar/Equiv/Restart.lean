import OrbisCompat.Wchar.Equiv.Machine
import OrbisCompat.Wchar.Restart

/-!
# `mbsrtowcs` is `mbrtowc` over and over

Behind `resume:` and `resume0:`, the loops do what the table machine does from the state they are entered with
(`resume_answers`, `resume0_eq`), except that they always step back to the byte in front of the label when they find
something else than a continuation byte.  So a time round a loop is a call of `mbrtowc` (`turn_goes`), and both loops are
calls of it, one after the other (`storeLoop_calls`, `countLoop_calls`).

What the entry behind a state that is not initial leaves out is the check of `wn`, and the byte in front of the label is
not in the string there (`mbsrtowcs_resume_bad`).
-/

namespace OrbisCompat.Wchar.Restart

open Chunked Utf8

variable {P : ℕ → ℕ → Prop} {b c j k st wn d : ℕ} {mem s ws : List ℕ}

/-! ### Reads -/

theorem get_of_drop (h : mem.drop k = b :: s) : get mem k = some b := by
  have hhead : mem[k]? = some b := by rw [← List.head?_drop, h, List.head?_cons]
  unfold get
  rw [if_neg (by omega), Int.toNat_natCast, hhead]

theorem drop_succ (h : mem.drop k = b :: s) : mem.drop (k + 1) = s := by
  rw [← List.drop_drop, h, List.drop_one, List.tail_cons]

theorem get_mem {i : ℤ} (h : get mem i = some b) : b ∈ mem := by
  unfold get at h
  split_ifs at h
  exact List.mem_of_getElem? h

theorem lt_length_of_get (h : get mem k = some b) : k < mem.length := by
  unfold get at h
  rw [if_neg (by omega), Int.toNat_natCast] at h
  exact (List.getElem?_eq_some_iff.mp h).1

theorem forall_mem_drop (hmem : ∀ b ∈ mem, b < 256) : ∀ b ∈ mem.drop k, b < 256 :=
  fun b hb => hmem b (List.mem_of_mem_drop hb)

theorem forall_mem_take (hmem : ∀ b ∈ mem, b < 256) (n : ℕ) : ∀ b ∈ mem.take n, b < 256 :=
  fun b hb => hmem b (List.mem_of_mem_take hb)

/-! ### Behind the labels -/

/-- What a label does at `k`, beside what the machine does; `P` relates the characters. -/
inductive Answers (P : ℕ → ℕ → Prop) (k : ℤ) : Called ℕ ℕ → Option Turn → Prop
  | item {c c' j : ℕ} (h : P c c') : Answers P k (.item c j 0) (some (.char c' (k + j)))
  | bad {c : ℕ} (h : c ≠ 0) : Answers P k (.bad 0) (some (.stop c (k - 1)))
  | more {st : ℕ} {t : Option Turn} : Answers P k (.more st) t

/-- Two bytes behind the second one are enough. -/
theorem push_mid_mid {b' : ℕ} (hc : Mid c) (hb : Trail b) (hmore : push c b = .more d) (hb' : Trail b') :
    push d b' = .item (Word32.shl d 6 + (b' - 0x80)) := by
  have ht := Trail.sub_lt hb
  cases hc with
  | three hx hu =>
    rw [push_three_last hx hu hb] at hmore
    injection hmore
  | four hx hu =>
    rw [push_four_next hx hu hb] at hmore
    have hd := Pushed.more.inj hmore
    rw [← hd, push_four_last hx hu ht hb', (shl_state_four hx hu ht).2.2.2]
  | last hx hu hv =>
    rw [push_four_last hx hu hv hb] at hmore
    injection hmore

/-- What the byte behind the label has led to: the character, or a state. -/
def reached (c : ℕ) (s : List ℕ) : Called ℕ ℕ := if c &&& 2 ^ 31 = 0 then .item c 0 0 else call push 0 c s

theorem call_reached (hc : Inside c) (hb : b < 256) (hoob : OOB c b = 0) :
    call push 0 c (b :: s) = (reached (Word32.shl c 6 + (b - 0x80)) s).shift 1 := by
  have hnext := push_next hc hb hoob
  unfold reached
  split_ifs at hnext ⊢ with hdone
  · rw [call_cons_item hnext]
    rfl
  · rw [call_cons_more hnext]

/-- The inner block starts two bytes behind the label. -/
theorem resumeInner_answers (hmem : ∀ b ∈ mem, b < 256) (hc : c &&& 2 ^ 31 ≠ 0 → Mid c)
    (hone : c &&& 2 ^ 31 ≠ 0 → ∀ b, Trail b → push c b = .item (Word32.shl c 6 + (b - 0x80)))
    (hs : mem.drop k = s) : Answers Eq (k - 2 : ℤ) ((reached c s).shift 2) (resumeInner mem c k) := by
  have hbytes : ∀ b ∈ s, b < 256 := hs ▸ forall_mem_drop hmem
  unfold resumeInner reached
  by_cases hdone : c &&& 2 ^ 31 = 0
  · have hpos : (k : ℤ) = k - 2 + (0 + 2 : ℕ) := by omega
    rw [if_pos hdone, if_neg (not_not.mpr hdone)]
    nth_rewrite 2 [hpos]
    exact .item rfl
  rw [if_neg hdone, if_pos hdone]
  have hc := hc hdone
  cases s with
  | nil => exact .more
  | cons b s =>
    have hb := hbytes b List.mem_cons_self
    rw [get_of_drop hs, Option.bind_eq_bind, Option.bind_some]
    by_cases ht : Trail b
    · rw [if_neg (not_not.mpr ht ∘ (test_trail hb).mp), shift_in ht, call_cons_item (hone hdone b ht)]
      have hpos : (k : ℤ) + 1 = k - 2 + (1 + 2 : ℕ) := by omega
      rw [hpos]
      exact .item rfl
    · have hoob : OOB c b ≠ 0 := mt (hc.oob hb).mp ht
      have hback : (k : ℤ) - 3 = k - 2 - 1 := by omega
      rw [if_pos ((test_trail hb).mpr ht), call_cons_bad (push_oob (.mid hc) hoob), hback]
      exact .bad (Inside.mid hc).ne_zero

/-- The outer block starts one byte behind the label. -/
theorem resumeOuter_answers (hmem : ∀ b ∈ mem, b < 256) (hc : c &&& 2 ^ 31 ≠ 0 → Mid c) (hs : mem.drop k = s) :
    Answers Eq (k - 1 : ℤ) ((reached c s).shift 1) (resumeOuter mem c k) := by
  have hbytes : ∀ b ∈ s, b < 256 := hs ▸ forall_mem_drop hmem
  unfold resumeOuter
  by_cases hdone : c &&& 2 ^ 31 = 0
  · have hpos : (k : ℤ) = k - 1 + (0 + 1 : ℕ) := by omega
    rw [reached, if_pos hdone, if_neg (not_not.mpr hdone)]
    nth_rewrite 2 [hpos]
    exact .item rfl
  rw [reached, if_neg hdone, if_pos hdone]
  have hc := hc hdone
  cases s with
  | nil => exact .more
  | cons b s =>
    have hb := hbytes b List.mem_cons_self
    rw [get_of_drop hs, Option.bind_eq_bind, Option.bind_some]
    by_cases ht : Trail b
    · have hoob := (hc.oob hb).mpr ht
      have hinner : Word32.shl c 6 + (b - 0x80) &&& 2 ^ 31 ≠ 0 → Mid (Word32.shl c 6 + (b - 0x80)) := by
        rw [← shift_in ht]
        exact (Inside.mid hc).next hb hoob
      have hlast : Word32.shl c 6 + (b - 0x80) &&& 2 ^ 31 ≠ 0 → ∀ b', Trail b' →
          push (Word32.shl c 6 + (b - 0x80)) b' =
            .item (Word32.shl (Word32.shl c 6 + (b - 0x80)) 6 + (b' - 0x80)) := by
        intro hmore b' hb'
        refine push_mid_mid hc ht ?_ hb'
        rw [push_mid hc ht, if_neg hmore]
      have hpos : (k : ℤ) - 1 = (k + 1 : ℕ) - 2 := by omega
      rw [if_neg (not_not.mpr ht ∘ (test_trail hb).mp), shift_in ht, call_reached (.mid hc) hb hoob,
        Called.shift_shift, ← Nat.cast_succ, hpos]
      exact resumeInner_answers hmem hinner hlast (drop_succ hs)
    · have hoob : OOB c b ≠ 0 := mt (hc.oob hb).mp ht
      have hback : (k : ℤ) - 2 = k - 1 - 1 := by omega
      rw [if_pos ((test_trail hb).mpr ht), call_cons_bad (push_oob (.mid hc) hoob), hback]
      exact .bad (Inside.mid hc).ne_zero

/-- **Behind `resume:`**, the machine goes on, and what stops it leaves `s` in front of the label. -/
theorem resume_answers (hmem : ∀ b ∈ mem, b < 256) (hc : Inside c) (hs : mem.drop k = s) :
    Answers Eq k (call push 0 c s) (resume mem c k) := by
  have hbytes : ∀ b ∈ s, b < 256 := hs ▸ forall_mem_drop hmem
  unfold resume
  cases s with
  | nil => exact .more
  | cons b s =>
    have hb := hbytes b List.mem_cons_self
    rw [get_of_drop hs, Option.bind_eq_bind, Option.bind_some]
    by_cases hoob : OOB c b = 0
    · have ht := hc.trail hb hoob
      have hmid : Word32.shl c 6 + (b - 0x80) &&& 2 ^ 31 ≠ 0 → Mid (Word32.shl c 6 + (b - 0x80)) := by
        rw [← shift_in ht]
        exact hc.next hb hoob
      have hpos : (k : ℤ) = (k + 1 : ℕ) - 1 := by omega
      rw [if_neg (not_not.mpr hoob), shift_in ht, call_reached hc hb hoob, ← Nat.cast_succ]
      nth_rewrite 1 [hpos]
      exact resumeOuter_answers hmem hmid (drop_succ hs)
    · rw [if_pos hoob, call_cons_bad (push_oob hc hoob)]
      exact .bad hc.ne_zero

/-! ### Counting -/

/-- The marks are what the top bit will be. -/
theorem mark_next {t : ℕ} (ht : t < 64) : Word32.shl c 6 + t &&& 2 ^ 31 = 0 ↔ c &&& 2 ^ 25 = 0 := by
  rw [Word32.and_two_pow_eq_zero, Word32.and_two_pow_eq_zero]
  unfold Word32.shl
  rw [Nat.shiftLeft_eq]
  omega

theorem mark_next_next {t u : ℕ} (ht : t < 64) (hu : u < 64) :
    Word32.shl (Word32.shl c 6 + t) 6 + u &&& 2 ^ 31 = 0 ↔ c &&& 2 ^ 19 = 0 := by
  rw [mark_next hu, Word32.and_two_pow_eq_zero, Word32.and_two_pow_eq_zero]
  unfold Word32.shl
  rw [Nat.shiftLeft_eq]
  omega

/-- What is left of a time round when the characters are not stored, and the state is kept. -/
def Turn.counted (c : ℕ) : Turn → Turn
  | .char _ s => .char 0 s
  | .stop _ s => .stop c s

/-- **`resume0:`** goes where `resume:` goes. -/
theorem resume0_eq (hmem : ∀ b ∈ mem, b < 256) (hc : Inside c) (i : ℤ) :
    resume0 mem c i = (resume mem c i).map (Turn.counted c) := by
  unfold resume0 resume
  cases hb : get mem i with
  | none => rfl
  | some b =>
    have hlt := hmem b (get_mem hb)
    rw [Option.bind_eq_bind, Option.bind_some, Option.bind_some]
    by_cases hoob : OOB c b = 0
    swap
    · rw [if_pos hoob, if_pos hoob]
      rfl
    have ht := hc.trail hlt hoob
    rw [if_neg (not_not.mpr hoob), if_neg (not_not.mpr hoob), shift_in ht]
    unfold resume0Outer resumeOuter
    by_cases hone : c &&& 2 ^ 25 = 0
    · rw [if_neg (not_not.mpr hone), if_neg (not_not.mpr ((mark_next (Trail.sub_lt ht)).mpr hone))]
      rfl
    rw [if_pos hone, if_pos (mt (mark_next (Trail.sub_lt ht)).mp hone)]
    cases hb₂ : get mem (i + 1) with
    | none => rfl
    | some b₂ =>
      have hlt₂ := hmem b₂ (get_mem hb₂)
      rw [Option.bind_eq_bind, Option.bind_some, Option.bind_some]
      by_cases ht₂ : Trail b₂
      swap
      · rw [if_pos ((test_trail hlt₂).mpr ht₂), if_pos ((test_trail hlt₂).mpr ht₂)]
        rfl
      have hok := not_not.mpr ht₂ ∘ (test_trail hlt₂).mp
      rw [if_neg hok, if_neg hok, shift_in ht₂]
      unfold resume0Inner resumeInner
      have hmark := mark_next_next (c := c) (Trail.sub_lt ht) (Trail.sub_lt ht₂)
      by_cases htwo : c &&& 2 ^ 19 = 0
      · rw [if_neg (not_not.mpr htwo), if_neg (not_not.mpr (hmark.mpr htwo))]
        rfl
      rw [if_pos htwo, if_pos (mt hmark.mp htwo)]
      cases get mem (i + 1 + 1) with
      | none => rfl
      | some b₃ =>
        rw [Option.bind_eq_bind, Option.bind_some, Option.bind_some]
        split_ifs <;> rfl

theorem resume0_answers (hmem : ∀ b ∈ mem, b < 256) (hc : Inside c) (hs : mem.drop k = s) :
    Answers (fun _ _ => True) k (call push 0 c s) (resume0 mem c k) := by
  have h := resume_answers hmem hc hs
  rw [resume0_eq hmem hc]
  generalize call push 0 c s = r at h ⊢
  generalize resume mem c k = t at h ⊢
  cases h with
  | item _ => exact .item trivial
  | bad _ => exact .bad hc.ne_zero
  | more => exact .more

/-! ### Calls of `mbrtowc` -/

theorem called_eq_bad {r : Mbrtowc} {x : ℕ} (h : r.called = .bad x) : r.ret = -1 ∧ r.st = x := by
  unfold Mbrtowc.called at h
  split_ifs at h with hmore hbad
  injection h with h
  exact ⟨hbad, h⟩

theorem called_eq_item {r : Mbrtowc} {x : ℕ} (h : r.called = .item c j x) : r.ret ≠ -2 ∧ r.ret ≠ -1 ∧
    r.wc.getD 0 = c ∧ (if r.ret = 0 then 1 else r.ret.toNat) = j ∧ r.st = x := by
  unfold Mbrtowc.called at h
  split_ifs at h with hmore hbad
  all_goals
    injection h with hc hj hx
    simp_all

theorem mbrLoop_ret_ne_zero (n : ℕ) : ∀ {N c : ℕ} {s : List ℕ}, n ≤ N → (Wchar.mbrLoop N c s n).ret ≠ 0 := by
  induction n with
  | zero => exact fun _ h => by cases h
  | succ n ih =>
    intro N c s hN
    unfold Wchar.mbrLoop
    dsimp only
    split_ifs
    · dsimp only
      omega
    · exact fun h => by cases h
    · exact ih (Nat.le_of_succ_le hN)

theorem mbrRest_ret_ne_zero {n N : ℕ} (hN : n ≤ N) : (Wchar.mbrRest N c s n).ret ≠ 0 := by
  unfold Wchar.mbrRest
  split_ifs
  · exact fun h => by cases h
  · exact mbrLoop_ret_ne_zero n hN

/-- `0` is returned at the terminator, outside of a character. -/
theorem mbrtowc_ret_zero : (Wchar.mbrtowc (some s) s.length st).ret = 0 ↔ st = 0 ∧ s.head? = some 0 := by
  unfold Wchar.mbrtowc
  cases s with
  | nil => simp
  | cons b s =>
    have hne : (b :: s).length ≠ 0 := Nat.succ_ne_zero _
    dsimp only
    rw [if_neg hne, List.headD_cons, List.head?_cons, List.tail_cons]
    by_cases hst : st = 0
    swap
    · rw [if_neg hst]
      exact iff_of_false (mbrRest_ret_ne_zero le_rfl) (fun h => hst h.1)
    rw [if_pos hst]
    by_cases hascii : b < 0x80
    · rw [if_pos hascii]
      by_cases hb : b = 0 <;> simp [hb, hst]
    have hb : ¬b = 0 := by omega
    rw [if_neg hascii]
    split_ifs
    · simp [mbrIlseq, hb]
    · exact iff_of_false (mbrRest_ret_ne_zero (Nat.sub_le _ 1)) (by simp [hb])

section

variable (hst : Between st) (hs : ∀ b ∈ s, b < 256)
include hst hs

theorem calls_more {x : ℕ} (h : call push 0 st s = .more x) (wn : ℕ) : calls (wn + 1) st s = ⟨[], 0, .short, x⟩ := by
  rw [← mbrtowc_call hst hs, called_eq_more] at h
  rw [calls, if_pos h.1, h.2]

theorem calls_bad {x : ℕ} (h : call push 0 st s = .bad x) (wn : ℕ) : calls (wn + 1) st s = ⟨[], 0, .bad, x⟩ := by
  rw [← mbrtowc_call hst hs] at h
  obtain ⟨hret, hx⟩ := called_eq_bad h
  rw [calls, if_neg (by omega), if_pos hret, hx]

theorem calls_char {x : ℕ} (h : call push 0 st s = .item c j x) (hne : ¬(st = 0 ∧ s.head? = some 0)) (wn : ℕ) :
    calls (wn + 1) st s = (calls wn 0 (s.drop j)).cons c j := by
  obtain ⟨-, -, hzero⟩ := call_item h
  rw [← mbrtowc_call hst hs] at h
  obtain ⟨hmore, hbad, hc, hj, hx⟩ := called_eq_item h
  have hret := mt mbrtowc_ret_zero.mp hne
  rw [if_neg hret] at hj
  rw [calls, if_neg hmore, if_neg hbad, if_neg hret, hc, hj, hx, hzero]

end

theorem calls_nul (wn : ℕ) (s : List ℕ) : calls (wn + 1) 0 (0 :: s) = ⟨[], 0, .nul, 0⟩ := rfl

/-! ### A time round -/

/-- What a time round a loop does at `k`, beside what a call of `mbrtowc` does there. -/
inductive Goes (P : ℕ → ℕ → Prop) (mem : List ℕ) (k : ℕ) : Option Turn → (ℕ → Calls) → Prop
  | short {x : ℕ} {t : Option Turn} : Goes P mem k t fun _ => ⟨[], 0, .short, x⟩
  | bad {c : ℕ} (h : c = 0 → ∃ b, get mem k = some b ∧ b ≠ 0) :
      Goes P mem k (some (.stop c k)) fun _ => ⟨[], 0, .bad, 0⟩
  | nul (h : get mem k = some 0) : Goes P mem k (some (.stop 0 k)) fun _ => ⟨[], 0, .nul, 0⟩
  | char {c c' j : ℕ} (h : P c c') (hj : 0 < j) (hk : k + j ≤ mem.length) :
      Goes P mem k (some (.char c' ((k + j : ℕ) : ℤ))) fun wn => (calls wn 0 (mem.drop (k + j))).cons c j

/-- **A time round a loop** is a call of `mbrtowc`. -/
theorem turn_goes {tail : List ℕ → ℕ → ℤ → Option Turn} (hP : ∀ c, P c c) (hmem : ∀ b ∈ mem, b < 256)
    (htail : ∀ {c k s}, Inside c → mem.drop k = s → Answers P k (call push 0 c s) (tail mem c k)) (k : ℕ) :
    Goes P mem k (turn tail mem k) fun wn => calls (wn + 1) 0 (mem.drop k) := by
  have hbytes : ∀ b ∈ mem.drop k, b < 256 := forall_mem_drop hmem
  have hinit : Between 0 := Or.inl rfl
  unfold turn
  cases hs : mem.drop k with
  | nil =>
    have hmore : call push 0 0 [] = .more 0 := rfl
    simp only [calls_more hinit (by simp) hmore]
    exact .short
  | cons b s =>
    rw [hs] at hbytes
    have hb := hbytes b List.mem_cons_self
    have hlen : k + (b :: s).length = mem.length := by
      have := congrArg List.length hs
      rw [List.length_drop, List.length_cons] at this
      rw [List.length_cons]
      omega
    have hdrop : ∀ j, (b :: s).drop j = mem.drop (k + j) := fun j => by rw [← hs, List.drop_drop]
    rw [get_of_drop hs, Option.bind_eq_bind, Option.bind_some]
    -- a byte that is a character
    by_cases hascii : Word32.sub b 1 < 0x7f
    · have hb' := (test_ascii hb).mp hascii
      have hone : call push 0 0 (b :: s) = .item b 1 0 := call_cons_item (push_ascii hb'.2) s
      have hne : ¬((0 : ℕ) = 0 ∧ (b :: s).head? = some 0) := by simp [hb'.1.ne']
      have hk : k + 1 ≤ mem.length := by
        rw [List.length_cons] at hlen
        omega
      rw [if_pos hascii]
      simp only [calls_char hinit hbytes hone hne, hdrop]
      exact .char (hP b) one_pos hk
    rw [if_neg hascii]
    -- the terminator, or a byte that nothing starts with
    by_cases hlead : Word32.sub b SA > SB - SA
    · rw [if_pos hlead]
      by_cases hzero : b = 0
      · subst hzero
        simp only [calls_nul]
        exact .nul (get_of_drop hs)
      · have hnascii : ¬b < 0x80 := fun h => hascii ((test_ascii hb).mpr ⟨Nat.pos_of_ne_zero hzero, h⟩)
        have hbad : call push 0 0 (b :: s) = .bad 0 :=
          call_cons_bad (push_not_lead hb hnascii ((test_lead hb).mp hlead)) s
        simp only [calls_bad hinit hbytes hbad]
        exact .bad fun _ => ⟨b, get_of_drop hs, hzero⟩
    · rw [if_neg hlead]
      rw [test_lead hb, not_not] at hlead
      -- a byte that starts a character: `tail` answers for the rest of it
      obtain ⟨i, rfl⟩ := Nat.exists_eq_add_of_le hlead.1
      have hi : i < 51 := by omega
      have hidx : 0xC2 + i - SA = i := Nat.add_sub_cancel_left _ _
      have hmore : call push 0 0 ((0xC2 + i) :: s) = (call push 0 (bittab.getD i 0) s).shift 1 :=
        call_cons_more (push_lead hi) s
      have hne : ¬((0 : ℕ) = 0 ∧ ((0xC2 + i) :: s).head? = some 0) := by simp
      have hanswers := htail (.lead hi) (drop_succ hs)
      rw [hidx, ← Nat.cast_succ]
      generalize hcall : call push 0 (bittab.getD i 0) s = r at hanswers hmore
      generalize tail mem (bittab.getD i 0) ((k + 1 : ℕ) : ℤ) = t at hanswers ⊢
      cases hanswers with
      | @item c c' j h =>
        have hpos : ((k + 1 : ℕ) : ℤ) + j = (k + (j + 1) : ℕ) := by omega
        have hk : k + (j + 1) ≤ mem.length := by
          have := (call_item hcall).2.1
          rw [List.length_cons] at hlen
          omega
        rw [hpos]
        simp only [calls_char hinit hbytes hmore hne, hdrop]
        exact .char h (Nat.succ_pos j) hk
      | @bad c h =>
        have hpos : ((k + 1 : ℕ) : ℤ) - 1 = k := by omega
        rw [hpos]
        simp only [calls_bad hinit hbytes hmore]
        exact .bad fun hz => absurd hz h
      | more =>
        simp only [calls_more hinit hbytes hmore]
        exact .short

/-! ### The loops -/

/-- What a function does that is `mbrtowc` over and over, from `k` on, if it leaves the state `st`. -/
def Calls.srtowcs (r : Calls) (k : ℤ) (st : Option ℕ) : Srtowcs :=
  { ret := r.ret, errno := if r.ended = .bad then some .EILSEQ else none, ws := r.stored, src := r.src.map (k + ·), st }

/-- Calls behind others. -/
def Calls.behind (ws : List ℕ) (d : ℕ) (r : Calls) : Calls := { r with wcs := ws ++ r.wcs, used := d + r.used }

theorem Calls.behind_cons (ws : List ℕ) (d c j : ℕ) (r : Calls) :
    (r.cons c j).behind ws d = r.behind (ws ++ [c]) (d + j) := by
  unfold behind cons
  simp [Nat.add_assoc]

@[simp] theorem Calls.behind_nil (r : Calls) : r.behind [] 0 = r := by
  unfold behind
  simp

@[simp] theorem Calls.behind_ended (ws : List ℕ) (d : ℕ) (r : Calls) : (r.behind ws d).ended = r.ended := rfl

@[simp] theorem Calls.cons_ended (c j : ℕ) (r : Calls) : (r.cons c j).ended = r.ended := rfl

/-- The word that counts down. -/
theorem sub_sub_word {a d : ℕ} (ha : a < 2 ^ 64) (hd : d < 2 ^ 64) : Word64.sub a (Word64.sub a d) = d := by
  unfold Word64.sub
  omega

theorem sub_one_word {a d : ℕ} (ha : a < 2 ^ 64) (hd : d + 1 ≤ 2 ^ 64) :
    Word64.sub (Word64.sub a d) 1 = Word64.sub a (d + 1) := by
  unfold Word64.sub
  omega

/-- **The loop that stores**, with the characters `ws` stored of `d` bytes. -/
theorem storeLoop_calls (hmem : ∀ b ∈ mem, b < 256) (src : ℤ) (o : Option ℕ) (wn0 : ℕ) (hwn0 : wn0 < 2 ^ 64)
    (wn : ℕ) : ∀ (k d : ℕ) (ws : List ℕ), ws.length + wn = wn0 → (calls wn 0 (mem.drop k)).ended ≠ .short →
      storeLoop mem src o wn0 wn k ws =
        some (((calls wn 0 (mem.drop k)).behind ws d).srtowcs (k - d : ℤ) o) := by
  induction wn with
  | zero =>
    intro k d ws hlen _
    simp [storeLoop, calls, Calls.srtowcs, Calls.behind, Calls.ret, Calls.stored, Calls.src, ← hlen]
  | succ wn ih =>
    intro k d ws hlen hshort
    have hword : wn + 1 = Word64.sub wn0 ws.length := by
      unfold Word64.sub
      omega
    have hgoes := turn_goes (fun _ => rfl) hmem (resume_answers hmem) k
    unfold storeLoop
    generalize turn resume mem k = t at hgoes ⊢
    generalize hcalls : (fun wn => calls (wn + 1) 0 (mem.drop k)) = f at hgoes
    have hcalls := congrFun hcalls wn
    rw [hcalls] at hshort ⊢
    cases hgoes with
    | short => exact absurd rfl hshort
    | @bad c h =>
      dsimp only [Option.bind_eq_bind, Option.bind_some]
      unfold finish
      by_cases hc : c = 0
      · obtain ⟨b, hb, hne⟩ := h hc
        simp [hc, hb, hne, Calls.srtowcs, Calls.behind, Calls.ret, Calls.stored, Calls.src]
      · simp [hc, Calls.srtowcs, Calls.behind, Calls.ret, Calls.stored, Calls.src]
    | nul h =>
      have hret : Word64.sub wn0 (wn + 1) = ws.length := by
        rw [hword]
        exact sub_sub_word hwn0 (by omega)
      dsimp only [Option.bind_eq_bind, Option.bind_some]
      simp [finish, h, hret, Calls.srtowcs, Calls.behind, Calls.ret, Calls.stored, Calls.src]
    | @char c c' j h hj hk =>
      have hpos : (k : ℤ) - d = (k + j : ℕ) - (d + j : ℕ) := by omega
      dsimp only [Option.bind_eq_bind, Option.bind_some]
      rw [ih (k + j) (d + j) (ws ++ [c']) (by simp; omega) hshort, Calls.behind_cons, h, hpos]

/-- What counting does, with `d` characters counted. -/
def Calls.counted (r : Calls) (d : ℕ) (src : ℤ) (o : Option ℕ) : Srtowcs :=
  { ret := r.ret.map (d + ·), errno := if r.ended = .bad then some .EILSEQ else none, src := some src, st := o }

/-- **The loop that counts**, which the bytes bound, and not `W`. -/
theorem countLoop_calls (hmem : ∀ b ∈ mem, b < 256) (src : ℤ) (o : Option ℕ) (wn0 : ℕ) (hwn0 : wn0 < 2 ^ 64)
    (fuel : ℕ) : ∀ (k d W : ℕ), mem.length < k + fuel → mem.length < k + W → d + mem.length ≤ 2 ^ 64 + k →
      k ≤ mem.length → (calls W 0 (mem.drop k)).ended ≠ .short →
      countLoop mem src o wn0 fuel (Word64.sub wn0 d) k = some ((calls W 0 (mem.drop k)).counted d src o) := by
  induction fuel with
  | zero => exact fun k d W hfuel _ _ hk => absurd hfuel (by omega)
  | succ fuel ih =>
    intro k d W hfuel hW hd hk hshort
    obtain ⟨W, rfl⟩ : ∃ W', W = W' + 1 := Nat.exists_eq_succ_of_ne_zero (by omega)
    have hgoes := turn_goes (fun _ => trivial) hmem (resume0_answers hmem) k
    unfold countLoop
    generalize turn resume0 mem k = t at hgoes ⊢
    generalize hcalls : (fun wn => calls (wn + 1) 0 (mem.drop k)) = f at hgoes
    have hcalls := congrFun hcalls W
    rw [hcalls] at hshort ⊢
    cases hgoes with
    | short => exact absurd rfl hshort
    | @bad c h =>
      dsimp only [Option.bind_eq_bind, Option.bind_some]
      unfold finish
      by_cases hc : c = 0
      · obtain ⟨b, hb, hne⟩ := h hc
        simp [hc, hb, hne, Calls.counted, Calls.ret]
      · simp [hc, Calls.counted, Calls.ret]
    | nul h =>
      have hret : Word64.sub wn0 (Word64.sub wn0 d) = d := sub_sub_word hwn0 (by have := lt_length_of_get h; omega)
      dsimp only [Option.bind_eq_bind, Option.bind_some]
      simp [finish, h, hret, Calls.counted, Calls.ret]
    | @char c c' j h hj hk =>
      dsimp only [Option.bind_eq_bind, Option.bind_some]
      rw [sub_one_word hwn0 (by omega), ih (k + j) (d + 1) W (by omega) (by omega) (by omega) hk hshort]
      unfold Calls.counted Calls.cons Calls.ret
      split_ifs <;> simp [Nat.add_comm, Nat.add_left_comm]

/-! ### The calls -/

variable {o : Option ℕ}

/-- **Storing**, unless a state that is not initial leads to no character. -/
theorem mbsrtowcs_store (hmem : ∀ b ∈ mem, b < 256) (ho : Between (o.getD 0)) (hwn : wn < 2 ^ 64)
    (hshort : (calls wn (o.getD 0) (mem.drop k)).ended ≠ .short)
    (hfirst : o.getD 0 = 0 ∨ (calls wn (o.getD 0) (mem.drop k)).wcs ≠ []) :
    mbsrtowcs false mem k wn o = some ((calls wn (o.getD 0) (mem.drop k)).srtowcs k (o.map fun _ => 0)) := by
  unfold mbsrtowcs
  dsimp only
  by_cases hzero : o.getD 0 = 0
  · have hstate : o.map (fun _ => 0) = o := by
      cases o with
      | none => rfl
      | some x =>
        have : x = 0 := hzero
        rw [this]
        rfl
    rw [hzero] at hshort ⊢
    rw [if_neg (not_not.mpr rfl), if_neg Bool.false_ne_true,
      storeLoop_calls hmem k o wn hwn wn k 0 [] (Nat.zero_add wn) hshort, Calls.behind_nil, Nat.cast_zero, sub_zero,
      hstate]
  · -- the character that was begun comes first, and the loop starts behind it
    obtain ⟨x, rfl⟩ : ∃ x, o = some x := by
      cases o with
      | none => exact absurd rfl hzero
      | some x => exact ⟨x, rfl⟩
    dsimp only [Option.getD_some, Option.map_some] at *
    have hfirst := hfirst.resolve_left hzero
    have hbytes : ∀ b ∈ mem.drop k, b < 256 := forall_mem_drop hmem
    have hin : Inside x := ho.resolve_left hzero
    have hanswers := resume_answers hmem hin rfl (k := k)
    cases wn with
    | zero => exact absurd rfl hfirst
    | succ wn =>
      have hword : Word64.sub (wn + 1) 1 = wn := by
        unfold Word64.sub
        omega
      rw [if_pos hzero, if_pos Bool.false_ne_true, hword]
      generalize hcall : call push 0 x (mem.drop k) = r at hanswers
      generalize resume mem x k = t at hanswers ⊢
      cases hanswers with
      | more => rw [calls_more ho hbytes hcall] at hshort; exact absurd rfl hshort
      | bad _ => rw [calls_bad ho hbytes hcall] at hfirst; exact absurd rfl hfirst
      | @item c c' j h =>
        have hne : ¬(x = 0 ∧ (mem.drop k).head? = some 0) := fun h => hzero h.1
        have hpos : ((k + j : ℕ) : ℤ) - j = k := by omega
        rw [calls_char ho hbytes hcall hne] at hshort ⊢
        rw [List.drop_drop] at hshort ⊢
        dsimp only [Option.bind_eq_bind, Option.bind_some]
        rw [← Nat.cast_add, storeLoop_calls hmem k (some 0) (wn + 1) hwn wn (k + j) j [c'] (by simp; omega) hshort, hpos, h]
        rfl

/-- **Counting**, which takes a state that is not initial as well. -/
theorem mbsrtowcs_count (hmem : ∀ b ∈ mem, b < 256) (ho : Between (o.getD 0)) (hwn : wn < 2 ^ 64)
    (hk : k ≤ mem.length) (hlen : mem.length ≤ 2 ^ 64 + k) {W : ℕ} (hW : mem.length < k + W)
    (hshort : (calls W (o.getD 0) (mem.drop k)).ended ≠ .short) :
    mbsrtowcs true mem k wn o = some ((calls W (o.getD 0) (mem.drop k)).counted 0 k o) := by
  have hword : wn = Word64.sub wn 0 := by
    unfold Word64.sub
    omega
  unfold mbsrtowcs
  dsimp only
  by_cases hzero : o.getD 0 = 0
  · rw [hzero] at hshort ⊢
    rw [if_neg (not_not.mpr rfl), if_pos rfl]
    nth_rewrite 2 [hword]
    exact countLoop_calls hmem k o wn hwn (mem.length + 1) k 0 W (by omega) hW (by omega) hk hshort
  · -- the character that was begun counts one, and the loop starts behind it
    have hin : Inside (o.getD 0) := ho.resolve_left hzero
    have hbytes : ∀ b ∈ mem.drop k, b < 256 := forall_mem_drop hmem
    have hanswers := resume0_answers hmem hin rfl (k := k)
    obtain ⟨W, rfl⟩ : ∃ W', W = W' + 1 := Nat.exists_eq_succ_of_ne_zero (by omega)
    rw [if_pos hzero, if_neg (not_not.mpr rfl)]
    generalize hcall : call push 0 (o.getD 0) (mem.drop k) = r at hanswers
    generalize resume0 mem (o.getD 0) k = t at hanswers ⊢
    cases hanswers with
    | more => rw [calls_more ho hbytes hcall] at hshort; exact absurd rfl hshort
    | bad h =>
      rw [calls_bad ho hbytes hcall]
      dsimp only [Option.bind_eq_bind, Option.bind_some]
      simp [finish, h, Calls.counted, Calls.ret]
    | @item c c' j h =>
      have hne : ¬(o.getD 0 = 0 ∧ (mem.drop k).head? = some 0) := fun h => hzero h.1
      obtain ⟨hj, hle, -⟩ := call_item hcall
      rw [List.length_drop] at hle
      rw [calls_char ho hbytes hcall hne] at hshort ⊢
      rw [List.drop_drop] at hshort ⊢
      dsimp only [Option.bind_eq_bind, Option.bind_some]
      rw [← Nat.cast_add, countLoop_calls hmem k o wn hwn (mem.length + 1) (k + j) 1 W (by omega) (by omega) (by omega)
        (by omega) hshort]
      unfold Calls.counted Calls.cons Calls.ret
      split_ifs <;> simp [Nat.add_comm]

/-- **A state that leads to no character** leaves `*src` in front of the string, whatever room there is. -/
theorem mbsrtowcs_resume_bad {x y : ℕ} (hmem : ∀ b ∈ mem, b < 256) (hx : Inside x)
    (hcall : call push 0 x (mem.drop k) = .bad y) :
    mbsrtowcs false mem k wn (some x) =
      some { ret := none, errno := some .EILSEQ, src := some (k - 1), st := some 0 } := by
  have hanswers := resume_answers hmem hx rfl (k := k)
  unfold mbsrtowcs
  dsimp only [Option.getD_some]
  rw [if_pos hx.ne_zero, if_pos Bool.false_ne_true]
  rw [hcall] at hanswers
  generalize resume mem x k = t at hanswers ⊢
  cases hanswers with
  | bad h =>
    dsimp only [Option.bind_eq_bind, Option.bind_some]
    simp [finish, h]

end OrbisCompat.Wchar.Restart
