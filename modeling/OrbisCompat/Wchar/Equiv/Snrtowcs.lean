import OrbisCompat.Wchar.Equiv.Calls

/-!
# What `mbsnrtowcs` converts

Both loops are calls of `mbrtowc`, one after the other, over the bytes that `n` lets them read: the loop that calls it
(`byteLoop_calls`), and the loop that calls `mbsrtowcs` for so few characters that the bytes are enough for them
(`mbsnrtowcs_run`).

Two things go wrong.  A character that the bytes cut off is given back, with `*(unsigned *)st = 0`, whether there is a state
object or not; and when the state held bytes of that character already, these are lost.  And without a state object
`mbrtowc` goes on from its own `internal_state`, and `mbsrtowcs` does not.
-/

namespace OrbisCompat.Wchar.Restart

open Chunked Utf8

variable {null : Bool} {b c d j k n st wn : ℕ} {mem s t : List ℕ} {v v' : Vars}

/-! ### `mbrtowc`, with its reads -/

/-- What a call returns and stores. -/
def answer : Called ℕ ℕ → Mbrtowc
  | .item c k st => { ret := k, wc := some c, st }
  | .more st => { ret := -2, st }
  | .bad _ => mbrIlseq

/-- There are `n` bytes to read, or a terminator before that. -/
def Readable (n : ℕ) (s : List ℕ) : Prop := n ≤ s.length ∨ 0 ∈ s

/-- The next byte is there to read, and what is behind it as well unless it is the terminator. -/
theorem Readable.uncons (h : Readable (n + 1) s) : ∃ b s', s = b :: s' ∧ (b ≠ 0 → Readable n s') := by
  cases s with
  | nil =>
    rcases h with h | h
    · cases h
    · cases h
  | cons b s =>
    refine ⟨b, s, rfl, fun hb => h.imp Nat.le_of_succ_le_succ fun h => ?_⟩
    exact (List.mem_cons.mp h).resolve_left (Ne.symm hb)

/-- Between two bytes of one call, the test is the one that the next call would make. -/
theorem mbrLoop_rest (hmem : ∀ b ∈ mem, b < 256) (hc : Mid c) (N n : ℕ) (i : ℤ) :
    (if n ≠ 0 then (get mem i).bind fun b => if Word32.sub b 0x80 ≥ 0x40 then some mbrIlseq else mbrLoop mem N n c i
      else mbrLoop mem N n c i) = mbrRest mem N n c i := by
  unfold mbrRest
  by_cases hn : n = 0
  · rw [if_neg (not_not.mpr hn), if_neg (not_not.mpr hn)]
  rw [if_pos hn, if_pos hn, Option.bind_eq_bind]
  cases hb : get mem i with
  | none => rw [Option.bind_none, Option.bind_none]
  | some b =>
    have hlt := hmem b (get_mem hb)
    rw [Option.bind_some, Option.bind_some]
    by_cases hoob : OOB c b = 0
    · have ht : ¬Word32.sub b 0x80 ≥ 0x40 := not_not.mpr ((hc.oob hlt).mp hoob) ∘ (test_trail hlt).mp
      rw [if_neg (not_not.mpr hoob), if_neg ht]
    · rw [if_pos hoob, if_pos ((test_trail hlt).mpr (mt (hc.oob hlt).mpr hoob))]

/-- Inside a character. -/
theorem mbrRest_checked (hmem : ∀ b ∈ mem, b < 256) (n : ℕ) : ∀ {c d k : ℕ} {s : List ℕ}, Inside c → mem.drop k = s →
    Readable n s → mbrRest mem (n + d) n c k = some (answer ((call push 0 c (s.take n)).shift d)) := by
  induction n with
  | zero => exact fun _ _ _ => rfl
  | succ n ih =>
    intro c d k s hc hs hread
    obtain ⟨b, s, rfl, hrest⟩ := hread.uncons
    have hb := (hs ▸ forall_mem_drop hmem : ∀ b' ∈ b :: s, b' < 256) b List.mem_cons_self
    unfold mbrRest
    rw [if_pos (Nat.succ_ne_zero n), get_of_drop hs, Option.bind_eq_bind, Option.bind_some, List.take_succ_cons]
    by_cases hoob : OOB c b = 0
    swap
    · rw [if_pos hoob, call_cons_bad (push_oob hc hoob)]
      rfl
    have ht := hc.trail hb hoob
    have hnext := push_next hc hb hoob
    have hb0 : b ≠ 0 := by
      rintro rfl
      exact absurd ht (by decide)
    rw [if_neg (not_not.mpr hoob), mbrLoop, get_of_drop hs, Option.bind_eq_bind, Option.bind_some, shift_in ht]
    by_cases hdone : Word32.shl c 6 + (b - 0x80) &&& 2 ^ 31 = 0
    · rw [if_pos hdone] at hnext ⊢
      have hret : ((n + 1 + d : ℕ) : ℤ) - n = (1 + d : ℕ) := by omega
      rw [call_cons_item hnext, Called.shift_item, hret]
      rfl
    · have hmid : Mid (Word32.shl c 6 + (b - 0x80)) := by
        rw [← shift_in ht] at hdone ⊢
        exact hc.next hb hoob hdone
      have hN : n + 1 + d = n + (1 + d) := Nat.add_assoc _ _ _
      rw [if_neg hdone] at hnext ⊢
      rw [mbrLoop_rest hmem hmid, hN, ← Nat.cast_succ, ih (.mid hmid) (drop_succ hs) (hrest hb0), call_cons_more hnext,
        Called.shift_shift]

/-- **A call** with the reads checked. -/
theorem mbrtowc_checked (hmem : ∀ b ∈ mem, b < 256) (hst : Between st) (hs : mem.drop k = s) (hread : Readable n s) :
    mbrtowc mem k n st = some (if st = 0 ∧ (s.take n).head? = some 0 then { ret := 0, wc := some 0, st := 0 }
      else answer (call push 0 st (s.take n))) := by
  unfold mbrtowc
  cases n with
  | zero => simp [call, answer]
  | succ n =>
    rw [if_neg (Nat.succ_ne_zero n)]
    by_cases hzero : st = 0
    swap
    · have hrest := mbrRest_checked (d := 0) hmem (n + 1) (hst.resolve_left hzero) hs hread
      rw [Called.shift_zero, Nat.add_zero] at hrest
      rw [if_neg hzero, hrest, if_neg fun h => hzero h.1]
    subst hzero
    obtain ⟨b, s, rfl, hrest⟩ := hread.uncons
    have hb := (hs ▸ forall_mem_drop hmem : ∀ b' ∈ b :: s, b' < 256) b List.mem_cons_self
    rw [if_pos rfl, get_of_drop hs, Option.bind_eq_bind, Option.bind_some, List.take_succ_cons, List.head?_cons]
    by_cases hascii : b < 0x80
    · rw [if_pos hascii, call_cons_item (push_ascii hascii)]
      by_cases hb0 : b = 0
      · simp [hb0]
      · simp [hb0, answer]
    have hb0 : b ≠ 0 := by omega
    rw [if_neg hascii]
    by_cases hlead : Word32.sub b SA > SB - SA
    · rw [if_pos hlead, call_cons_bad (push_not_lead hb hascii ((test_lead hb).mp hlead))]
      simp [hb0, answer]
    · rw [if_neg hlead]
      rw [test_lead hb, not_not] at hlead
      obtain ⟨i, rfl⟩ := Nat.exists_eq_add_of_le hlead.1
      have hi : i < 51 := by omega
      have hidx : 0xC2 + i - SA = i := Nat.add_sub_cancel_left _ _
      rw [hidx, Nat.add_sub_cancel, ← Nat.cast_succ, mbrRest_checked (d := 1) hmem n (.lead hi) (drop_succ hs) (hrest hb0),
        call_cons_more (push_lead hi)]
      simp

/-! ### What a run comes to -/

/-- The bytes `s` end inside a character. -/
def Calls.Cut (r : Calls) (s : List ℕ) : Prop := r.ended = .short ∧ r.used < s.length

instance (r : Calls) (s : List ℕ) : Decidable (r.Cut s) := inferInstanceAs (Decidable (_ ∧ _))

/-- `v'` is what `v` leads to from `k` on when the conversion is the calls `r` over `s`. -/
structure Outcome (null : Bool) (k : ℤ) (r : Calls) (s : List ℕ) (v v' : Vars) : Prop where
  cnt : v'.cnt = if r.ended = .bad then none else v.cnt.map (· + r.wcs.length)
  src : r.ended ≠ .bad → v'.s = r.src.map (k + ·)
  wcs : v'.wcs = if null then v.wcs else v.wcs ++ r.stored
  wbuf : v'.wbuf ≤ wbufSize
  state : v'.state = if r.Cut s then 0 else r.st
  object : v'.st = none ↔ v.st = none

/-- There is room in `wbuf` for `wn` more. -/
def Room (null : Bool) (wn : ℕ) (v : Vars) : Prop := v.wbuf ≤ wbufSize ∧ (null = true → v.off + wn ≤ wbufSize)

theorem Room.put (h : Room null wn v) (cs : List ℕ) (hcs : cs.length ≤ wn) : (v.put null cs).wbuf ≤ wbufSize := by
  unfold Vars.put
  cases null with
  | true =>
    have := h.2 rfl
    exact max_le h.1 (by omega)
  | false => exact h.1

theorem Room.mono (h : Room null wn v) (hle : d ≤ wn) : Room null d v :=
  ⟨h.1, fun hnull => (Nat.add_le_add_left hle _).trans (h.2 hnull)⟩

@[simp] theorem put_s (cs : List ℕ) : (v.put null cs).s = v.s := by unfold Vars.put; split_ifs <;> rfl

@[simp] theorem put_n (cs : List ℕ) : (v.put null cs).n = v.n := by unfold Vars.put; split_ifs <;> rfl

@[simp] theorem put_wn (cs : List ℕ) : (v.put null cs).wn = v.wn := by unfold Vars.put; split_ifs <;> rfl

@[simp] theorem put_cnt (cs : List ℕ) : (v.put null cs).cnt = v.cnt := by unfold Vars.put; split_ifs <;> rfl

@[simp] theorem put_off (cs : List ℕ) : (v.put null cs).off = v.off := by unfold Vars.put; split_ifs <;> rfl

@[simp] theorem put_st (cs : List ℕ) : (v.put null cs).st = v.st := by unfold Vars.put; split_ifs <;> rfl

@[simp] theorem put_internal (cs : List ℕ) : (v.put null cs).internal = v.internal := by
  unfold Vars.put; split_ifs <;> rfl

theorem put_wcs (cs : List ℕ) : (v.put null cs).wcs = if null then v.wcs else v.wcs ++ cs := by
  unfold Vars.put; split_ifs <;> rfl

@[simp] theorem put_state (cs : List ℕ) : (v.put null cs).state = v.state := by
  unfold Vars.state
  rw [put_st, put_internal]

section

variable {x : ℕ}

@[simp] theorem leave_s : (v.leave x).s = v.s := by unfold Vars.leave; cases v.st <;> rfl

@[simp] theorem leave_n : (v.leave x).n = v.n := by unfold Vars.leave; cases v.st <;> rfl

@[simp] theorem leave_cnt : (v.leave x).cnt = v.cnt := by unfold Vars.leave; cases v.st <;> rfl

@[simp] theorem leave_wcs : (v.leave x).wcs = v.wcs := by unfold Vars.leave; cases v.st <;> rfl

@[simp] theorem leave_wbuf : (v.leave x).wbuf = v.wbuf := by unfold Vars.leave; cases v.st <;> rfl

@[simp] theorem leave_off : (v.leave x).off = v.off := by unfold Vars.leave; cases v.st <;> rfl

@[simp] theorem leave_st : (v.leave x).st = none ↔ v.st = none := by
  unfold Vars.leave
  cases v.st <;> simp

@[simp] theorem leave_state : (v.leave x).state = x := by
  unfold Vars.leave Vars.state
  cases v.st <;> simp

end

theorem Calls.cons_eq_behind (c j : ℕ) (r : Calls) : r.cons c j = r.behind [c] j := rfl

theorem Calls.behind_cut (ws : List ℕ) (d : ℕ) (r : Calls) (s : List ℕ) :
    (r.behind ws d).Cut s ↔ r.Cut (s.drop d) := by
  unfold Cut
  rw [Calls.behind_ended, List.length_drop]
  refine and_congr_right fun _ => ?_
  change d + r.used < s.length ↔ _
  omega

/-- The end of a run whose beginning converted `d` bytes to `ws`. -/
theorem Outcome.behind {r : Calls} {w : Vars} {ws : List ℕ} (h : Outcome null ((k + d : ℕ) : ℤ) r (s.drop d) w v')
    (hcnt : w.cnt = v.cnt.map (· + ws.length)) (hwcs : w.wcs = if null then v.wcs else v.wcs ++ ws)
    (hobject : w.st = none ↔ v.st = none) : Outcome null k (r.behind ws d) s v v' where
  cnt := by
    rw [h.cnt, hcnt, Calls.behind_ended]
    simp [Calls.behind, Function.comp_def, Nat.add_assoc]
  src hbad := by
    rw [h.src hbad]
    unfold Calls.src
    rw [Calls.behind_ended]
    split_ifs
    · rfl
    · simp [Calls.behind, Int.add_assoc]
  wcs := by
    rw [h.wcs, hwcs]
    unfold Calls.stored
    rw [Calls.behind_ended]
    cases null <;> split_ifs <;> simp_all [Calls.behind]
  wbuf := h.wbuf
  state := by
    rw [h.state]
    exact if_congr (Calls.behind_cut ws d r s).symm rfl rfl
  object := h.object.trans hobject

/-- A run is the calls `r` over `s`, but for a character that is cut where there is no state object. -/
def Runs (null : Bool) (k : ℤ) (r : Calls) (s : List ℕ) (v : Vars) (run : Option Vars) : Prop :=
  if r.Cut s ∧ v.st = none then run = none else ∃ v', run = some v' ∧ Outcome null k r s v v'

theorem Runs.of_not_cut {r : Calls} {run : Option Vars} (h : ¬r.Cut s) (hrun : ∃ v', run = some v' ∧ Outcome null k r s v v') :
    Runs null k r s v run := by
  unfold Runs
  rwa [if_neg fun h' => h h'.1]

/-- A run that nothing stops comes to its outcome. -/
theorem Runs.outcome {r : Calls} {run : Option Vars} (h : Runs null k r s v run) (hcut : v.st = none → ¬r.Cut s) :
    ∃ v', run = some v' ∧ Outcome null k r s v v' := by
  unfold Runs at h
  rwa [if_neg fun h' => hcut h'.2 h'.1] at h

theorem Runs.stuck {r : Calls} {run : Option Vars} (h : Runs null k r s v run) (hcut : r.Cut s) (hst : v.st = none) : run = none := by
  unfold Runs at h
  rwa [if_pos ⟨hcut, hst⟩] at h

/-- A run that goes on behind `d` bytes. -/
theorem Runs.behind {r : Calls} {w : Vars} {ws : List ℕ} {run : Option Vars} (h : Runs null ((k + d : ℕ) : ℤ) r (s.drop d) w run)
    (hcnt : w.cnt = v.cnt.map (· + ws.length)) (hwcs : w.wcs = if null then v.wcs else v.wcs ++ ws)
    (hobject : w.st = none ↔ v.st = none) : Runs null k (r.behind ws d) s v run := by
  unfold Runs at h ⊢
  simp only [Calls.behind_cut, ← hobject]
  split_ifs at h ⊢ with hnone
  · exact h
  · obtain ⟨v', hv', hout⟩ := h
    exact ⟨v', hv', hout.behind hcnt hwcs hobject⟩

theorem Readable.length_take_pos (h : Readable n s) (hn : n ≠ 0) : 0 < (s.take n).length := by
  rw [List.length_take]
  rcases h with h | h
  · omega
  · have := List.length_pos_of_mem h
    omega

/-- What a call does when it does not complete an item is not at the terminator. -/
theorem not_nul_of_call (h : call push 0 st s ≠ .item 0 1 0) : ¬(st = 0 ∧ s.head? = some 0) := by
  rintro ⟨rfl, hhead⟩
  obtain ⟨t, rfl⟩ := List.head?_eq_some_iff.mp hhead
  exact h (call_cons_item (push_ascii (by norm_num)) t)

/-- `j` bytes on, there is still enough to read. -/
theorem Readable.drop (hst : Between st) (hs : ∀ b ∈ s, b < 256) (h : Readable n s)
    (hcall : call push 0 st (s.take n) = .item c j 0) (hne : ¬(st = 0 ∧ (s.take n).head? = some 0)) :
    Readable (n - j) (s.drop j) := by
  by_cases hlen : n ≤ s.length
  · refine Or.inl ?_
    rw [List.length_drop]
    omega
  · have hzero := h.resolve_left hlen
    rw [List.take_of_length_le (by omega)] at hcall hne
    rw [← List.take_append_drop j s, List.mem_append] at hzero
    exact Or.inr (hzero.resolve_left (not_mem_take_of_item hst hs hcall hne))

/-! ### The loop that calls `mbrtowc` -/

/-- What the loop leaves when it has stored `c` and goes on behind `j` bytes. -/
def Vars.next (null : Bool) (v : Vars) (k c j wn : ℕ) : Vars :=
  { (v.put null [c]).leave 0 with s := some ((k + j : ℕ) : ℤ), n := v.n - j, off := v.off + 1, wn, cnt := v.cnt.map (· + 1) }

section

variable {i : ℤ} {x : ℕ}

theorem byteLoop_more (hn : v.n ≠ 0) (hcall : mbrtowc mem i v.n v.state = some (answer (.more x))) :
    byteLoop null mem (wn + 1) i v =
      if v.st = none then none else some { (v.put null []).leave x with st := some 0 } := by
  rw [byteLoop, if_neg hn, hcall]
  simp [answer]

theorem byteLoop_bad (hn : v.n ≠ 0) (hcall : mbrtowc mem i v.n v.state = some (answer (.bad x))) :
    byteLoop null mem (wn + 1) i v =
      some { (v.put null []).leave 0 with cnt := none, errno := some .EILSEQ } := by
  rw [byteLoop, if_neg hn, hcall]
  simp [answer, mbrIlseq]

theorem byteLoop_nul (hn : v.n ≠ 0) (hcall : mbrtowc mem i v.n v.state = some { ret := 0, wc := some 0, st := 0 }) :
    byteLoop null mem (wn + 1) i v = some { (v.put null [0]).leave 0 with s := none } := by
  rw [byteLoop, if_neg hn, hcall]
  simp

theorem byteLoop_item (hn : v.n ≠ 0) (hj : 0 < j) (hcall : mbrtowc mem k v.n v.state = some (answer (.item c j 0))) :
    byteLoop null mem (wn + 1) k v = byteLoop null mem wn ((k + j : ℕ) : ℤ) (v.next null k c j wn) := by
  have hbad : ¬(answer (.item c j 0)).ret = -1 := by change ¬(j : ℤ) = -1; omega
  have hnul : ¬(answer (.item c j 0)).ret = 0 := by change ¬(j : ℤ) = 0; omega
  have hmore : ¬(answer (.item c j 0)).ret = -2 := by change ¬(j : ℤ) = -2; omega
  rw [byteLoop, if_neg hn, hcall, Option.bind_eq_bind, Option.bind_some]
  dsimp only
  rw [if_neg hbad, if_neg hnul, if_neg hmore, leave_n, put_n, leave_off, put_off, leave_cnt, put_cnt]
  rfl

end

/-- Nothing is converted, and the state stays what it is. -/
theorem Outcome.refl {r : Calls} (hwcs : r.wcs = []) (hused : r.used = 0) (hended : r.ended = .full ∨ r.ended = .short)
    (hst : r.st = v.state) (hcut : ¬r.Cut s) (hs : v.s = some k) (hwbuf : v.wbuf ≤ wbufSize) :
    Outcome null k r s v v where
  cnt := by obtain h | h := hended <;> simp [h, hwcs]
  src _ := by obtain h | h := hended <;> simp [h, Calls.src, hused, hs]
  wcs := by obtain h | h := hended <;> simp [h, Calls.stored, hwcs]
  wbuf := hwbuf
  state := by rw [if_neg hcut, hst]
  object := Iff.rfl

/-- **The loop that calls `mbrtowc`.**  It stores through a null pointer exactly when the bytes end inside a character and
there is no state object. -/
theorem byteLoop_calls (hmem : ∀ b ∈ mem, b < 256) (wn : ℕ) : ∀ {k : ℕ} {v : Vars}, v.s = some (k : ℤ) →
    Between v.state → Readable v.n (mem.drop k) → Room null wn v →
      Runs null k (calls wn v.state ((mem.drop k).take v.n)) ((mem.drop k).take v.n) v (byteLoop null mem wn k v) := by
  induction wn with
  | zero =>
    intro k v hs _ _ hroom
    have hnot : ¬(calls 0 v.state ((mem.drop k).take v.n)).Cut ((mem.drop k).take v.n) := fun h => by cases h.1
    exact .of_not_cut hnot ⟨v, rfl, .refl rfl rfl (Or.inl rfl) rfl hnot hs hroom.1⟩
  | succ wn ih =>
    intro k v hs hst hread hroom
    have hbytes := forall_mem_take (forall_mem_drop (k := k) hmem) v.n
    by_cases hn : v.n = 0
    · -- the bytes are at an end, and no character is cut
      have hcalls : calls (wn + 1) v.state ((mem.drop k).take v.n) = ⟨[], 0, .short, v.state⟩ := by
        rw [hn, List.take_zero]
        exact calls_more hst (by simp) rfl wn
      have hnot : ¬(⟨[], 0, .short, v.state⟩ : Calls).Cut ((mem.drop k).take v.n) := by
        rw [hn]
        simp [Calls.Cut]
      rw [hcalls]
      exact .of_not_cut hnot ⟨v, by rw [byteLoop, if_pos hn], .refl rfl rfl (Or.inr rfl) rfl hnot hs hroom.1⟩
    have hcall := mbrtowc_checked hmem hst rfl hread
    have hempty := (hroom.mono (Nat.zero_le _)).put [] le_rfl
    cases first_call hst hbytes with
    | short x hmore h =>
      -- the one case that stores through `st`, which may be null
      have hcut : (⟨[], 0, .short, x⟩ : Calls).Cut ((mem.drop k).take v.n) := ⟨rfl, hread.length_take_pos hn⟩
      rw [if_neg (not_nul_of_call (by simp [hmore])), hmore] at hcall
      rw [h, byteLoop_more hn hcall]
      unfold Runs
      by_cases hobject : v.st = none
      · rw [if_pos ⟨hcut, hobject⟩, if_pos hobject]
      · rw [if_neg fun h => hobject h.2, if_neg hobject]
        refine ⟨_, rfl, ?_⟩
        exact {
          cnt := by simp
          src := fun _ => by simp [Calls.src, hs]
          wcs := by simp [Calls.stored, put_wcs]
          wbuf := by simpa using hempty
          state := by rw [if_pos hcut]; rfl
          object := by simp [hobject] }
    | bad hbad h =>
      have hnot : ¬(⟨[], 0, .bad, 0⟩ : Calls).Cut ((mem.drop k).take v.n) := fun h => by cases h.1
      rw [if_neg (not_nul_of_call (by simp [hbad])), hbad] at hcall
      rw [h, byteLoop_bad hn hcall]
      refine .of_not_cut hnot ⟨_, rfl, ?_⟩
      exact {
        cnt := by simp
        src := fun h => absurd rfl h
        wcs := by simp [Calls.stored, put_wcs]
        wbuf := by simpa using hempty
        state := by rw [if_neg hnot]; exact leave_state
        object := by simp }
    | nul hzero hhead h =>
      have hnot : ¬(⟨[], 0, .nul, 0⟩ : Calls).Cut ((mem.drop k).take v.n) := fun h => by cases h.1
      obtain ⟨t, ht⟩ := hhead
      rw [if_pos ⟨hzero, by rw [ht]; rfl⟩] at hcall
      rw [h, byteLoop_nul hn hcall]
      refine .of_not_cut hnot ⟨_, rfl, ?_⟩
      exact {
        cnt := by simp
        src := fun _ => by simp [Calls.src]
        wcs := by simp [Calls.stored, put_wcs]
        wbuf := by simpa using (hroom.mono (Nat.succ_le_succ (Nat.zero_le _))).put [0] le_rfl
        state := by rw [if_neg hnot]; exact leave_state
        object := by simp }
    | char c j hitem hne hj hle h =>
      -- the rest of the run starts behind the character, with the initial state
      have hstate : (v.next null k c j wn).state = 0 := leave_state (v := v.put null [c])
      have hdrop : (mem.drop (k + j)).take (v.n - j) = ((mem.drop k).take v.n).drop j := by
        rw [List.drop_take, List.drop_drop]
      have hread' : Readable (v.n - j) (mem.drop (k + j)) := by
        rw [← List.drop_drop]
        exact hread.drop hst (forall_mem_drop hmem) hitem hne
      have hroom' : Room null wn (v.next null k c j wn) := by
        refine ⟨by simpa [Vars.next] using (hroom.mono (Nat.succ_le_succ (Nat.zero_le _))).put [c] le_rfl, fun hnull => ?_⟩
        have := hroom.2 hnull
        simp only [Vars.next]
        omega
      have hrest := ih (k := k + j) (v := v.next null k c j wn) rfl (hstate ▸ Or.inl rfl) hread' hroom'
      rw [hstate, show (v.next null k c j wn).n = v.n - j from rfl, hdrop] at hrest
      rw [if_neg hne, hitem] at hcall
      rw [h, byteLoop_item hn hj hcall, Calls.cons_eq_behind]
      refine hrest.behind ?_ ?_ ?_
      · simp [Vars.next]
      · simp [Vars.next, put_wcs]
      · simp [Vars.next]

/-! ### The loop that calls `mbsrtowcs` -/

/-- How many characters the loop lets `mbsrtowcs` store. -/
theorem Practical.chunk (h : Practical n wn) : ∃ n2, (if n / 4 ≥ wn then wn else n / 4) = n2 ∧ 0 < n2 ∧ n2 ≤ wn ∧ 4 * n2 ≤ n := by
  unfold Practical at h
  refine ⟨_, rfl, ?_⟩
  split_ifs <;> omega

/-- Four bytes for each character are there to read, or the terminator is. -/
theorem Readable.calls_take (hst : Between st) (hs : ∀ b ∈ s, b < 256) (h : Readable n s) (hle : 4 * wn ≤ n) :
    (calls wn st (s.take n)).ended ≠ .short ∧ calls wn st s = calls wn st (s.take n) := by
  have hs' := forall_mem_take hs n
  have hshort : (calls wn st (s.take n)).ended ≠ .short := by
    by_cases hlen : n ≤ s.length
    · refine not_short_of_length wn hst hs' ?_
      rwa [List.length_take, Nat.min_eq_left hlen]
    · rw [List.take_of_length_le (by omega)]
      exact (calls_terminated hst hs (h.resolve_left hlen) wn).1
  refine ⟨hshort, ?_⟩
  have happend := calls_append (t := s.drop n) wn hst (by rwa [List.take_append_drop]) hshort
  rwa [List.take_append_drop] at happend

/-- Behind some calls, there is still enough to read. -/
theorem Readable.calls_drop (hst : Between st) (hs : ∀ b ∈ s, b < 256) (h : Readable n s) (wn : ℕ) :
    Readable (n - (calls wn st (s.take n)).used) (s.drop (calls wn st (s.take n)).used) := by
  by_cases hlen : n ≤ s.length
  · refine Or.inl ?_
    rw [List.length_drop]
    omega
  · rw [List.take_of_length_le (by omega)]
    exact Or.inr (calls_terminated hst hs (h.resolve_left hlen) wn).2

/-- `r` is what a call of `mbsrtowcs` from `k` on answers, with the state object `o`, when it makes the calls `R`. -/
structure Part (k : ℤ) (R : Calls) (o : Option ℕ) (r : Srtowcs) : Prop where
  ret : r.ret = R.ret
  ws : r.ws = R.stored
  st : r.st = o.map fun _ => 0
  src : R.ended ≠ .bad → r.src = R.src.map (k + ·)

/-- One call of `mbsrtowcs`. -/
theorem mbsrtowcs_part {o : Option ℕ} (hmem : ∀ b ∈ mem, b < 256) (ho : Between (o.getD 0))
    (hread : Readable n (mem.drop k)) (hpos : 0 < wn) (hle : 4 * wn ≤ n) (hn : n < 2 ^ 64) :
    ∃ r, mbsrtowcs false mem k wn o = some r ∧ Part k (calls wn (o.getD 0) ((mem.drop k).take n)) o r := by
  have hbytes := forall_mem_drop (k := k) hmem
  obtain ⟨hshort, hwhole⟩ := hread.calls_take ho hbytes hle
  rw [← hwhole] at hshort ⊢
  by_cases hfirst : o.getD 0 = 0 ∨ (calls wn (o.getD 0) (mem.drop k)).wcs ≠ []
  · exact ⟨_, mbsrtowcs_store hmem ho (by omega) hshort hfirst, rfl, rfl, rfl, fun _ => rfl⟩
  -- the state leads to no character
  rw [not_or, not_not] at hfirst
  obtain ⟨hzero, hwcs⟩ := hfirst
  obtain ⟨x, rfl⟩ : ∃ x, o = some x := by
    cases o with
    | none => exact absurd rfl hzero
    | some x => exact ⟨x, rfl⟩
  obtain ⟨wn, rfl⟩ := Nat.exists_eq_add_one_of_ne_zero hpos.ne'
  cases first_call ho hbytes with
  | short y _ h => exact absurd (by rw [h]) hshort
  | bad hcall h =>
    refine ⟨_, mbsrtowcs_resume_bad hmem (ho.resolve_left hzero) hcall, ?_⟩
    rw [h]
    exact ⟨rfl, rfl, rfl, fun hbad => absurd rfl hbad⟩
  | nul h _ _ => exact absurd h hzero
  | char c j _ _ _ _ h =>
    rw [h] at hwcs
    cases hwcs

/-- What follows the first loop. -/
def rest (null : Bool) (mem : List ℕ) (v : Vars) : Option Vars :=
  match v.s with
  | none => some v
  | some s => byteLoop null mem v.wn s v

theorem rest_none (h : v.s = none) : rest null mem v = some v := by
  unfold rest
  rw [h]

theorem rest_zero (h : v.wn = 0) : rest null mem v = some v := by
  unfold rest
  rw [h]
  cases v.s <;> rfl

theorem bulkLoop_none (h : v.s = none) : bulkLoop null mem n v = some v := by
  cases n with
  | zero => rfl
  | succ n =>
    unfold bulkLoop
    rw [h]

/-- What a call of `mbsrtowcs` leaves that fails. -/
def Vars.fail (null : Bool) (v : Vars) (r : Srtowcs) : Vars :=
  { v.put null r.ws with s := r.src, st := r.st, wn := 0, cnt := none, errno := r.errno }

/-- What a call of `mbsrtowcs` leaves that returns `l`, from `i` on. -/
def Vars.advance (null : Bool) (v : Vars) (i : ℤ) (r : Srtowcs) (l : ℕ) : Vars :=
  { v.put null r.ws with
    s := r.src, st := r.st, wn := if null then v.wn else v.wn - l, cnt := v.cnt.map (· + l)
    n := (r.src.map fun s' => ((v.n - (s' - i) : ℤ) % 2 ^ 64).toNat).getD 0 }

section

variable {fuel : ℕ} {i : ℤ} {r : Srtowcs}

theorem bulkLoop_stop (hs : v.s = some i) (hprac : ¬Practical v.n v.wn) :
    bulkLoop null mem (fuel + 1) v = some v := by
  rw [bulkLoop, hs]
  exact if_neg hprac

theorem bulkLoop_fail (hs : v.s = some i) (hprac : Practical v.n v.wn)
    (hr : mbsrtowcs false mem i (if v.n / 4 ≥ v.wn then v.wn else v.n / 4) v.st = some r) (hret : r.ret = none) :
    bulkLoop null mem (fuel + 1) v = some (v.fail null r) := by
  rw [bulkLoop, hs]
  dsimp only
  rw [if_pos hprac, hr, Option.bind_eq_bind, Option.bind_some, hret]
  rfl

theorem bulkLoop_some {l : ℕ} (hs : v.s = some i) (hprac : Practical v.n v.wn)
    (hr : mbsrtowcs false mem i (if v.n / 4 ≥ v.wn then v.wn else v.n / 4) v.st = some r) (hret : r.ret = some l) :
    bulkLoop null mem (fuel + 1) v = bulkLoop null mem fuel (v.advance null i r l) := by
  rw [bulkLoop, hs]
  dsimp only
  rw [if_pos hprac, hr, Option.bind_eq_bind, Option.bind_some, hret]
  unfold Vars.advance
  cases null <;> cases r.src <;> simp

end

section

variable {R : Calls} {r : Srtowcs} {w : Vars}

/-- `mbsrtowcs` leaves the initial state, in the object or, where there is none, because it was there before. -/
theorem Part.state (h : Part k R v.st r) (hinternal : v.st = none → v.internal = 0) (hst : w.st = r.st)
    (hw : w.internal = v.internal) : w.state = 0 := by
  unfold Vars.state
  rw [hst, hw, h.st]
  cases hobject : v.st with
  | none => exact hinternal hobject
  | some x => rfl

theorem Part.object (h : Part k R v.st r) : r.st = none ↔ v.st = none := by
  rw [h.st, Option.map_eq_none_iff]

/-- A part that ends in an error ends the run. -/
theorem Part.failed (h : Part k R v.st r) (hinternal : v.st = none → v.internal = 0) (hwbuf : (v.put null r.ws).wbuf ≤ wbufSize)
    (hbad : R.ended = .bad) (hst : R.st = 0) : Outcome null k R s v (v.fail null r) where
  cnt := by rw [if_pos hbad]; rfl
  src hnot := absurd hbad hnot
  wcs := h.ws ▸ put_wcs r.ws
  wbuf := hwbuf
  state := by
    have hcut : ¬R.Cut s := fun hcut => nomatch hbad.symm.trans hcut.1
    rw [if_neg hcut, hst]
    exact h.state hinternal rfl (put_internal r.ws)
  object := h.object

/-- So does one that ends at the terminator. -/
theorem Part.ended (h : Part k R v.st r) (hinternal : v.st = none → v.internal = 0) (hwbuf : (v.put null r.ws).wbuf ≤ wbufSize)
    (hnul : R.ended = .nul) (hst : R.st = 0) : Outcome null k R s v (v.advance null k r R.wcs.length) where
  cnt := by rw [if_neg (by simp [hnul])]; rfl
  src hnot := by rw [← h.src hnot]; rfl
  wcs := h.ws ▸ put_wcs r.ws
  wbuf := hwbuf
  state := by
    have hcut : ¬R.Cut s := fun hcut => nomatch hnul.symm.trans hcut.1
    rw [if_neg hcut, hst]
    exact h.state hinternal rfl (put_internal r.ws)
  object := h.object

/-- Where the run goes on behind a part that is not at an end. -/
theorem Part.src_full (h : Part k R v.st r) (hfull : R.ended = .full) : r.src = some ((k + R.used : ℕ) : ℤ) := by
  rw [h.src (by simp [hfull]), Calls.src, if_neg (by simp [hfull])]
  rfl

/-- How many bytes are left there. -/
theorem Part.advance_n (h : Part k R v.st r) (hfull : R.ended = .full) (hused : R.used ≤ v.n) (hn : v.n < 2 ^ 64) (l : ℕ) :
    (v.advance null k r l).n = v.n - R.used := by
  have hleft : (v.advance null k r l).n = (r.src.map fun s' => ((v.n - (s' - k) : ℤ) % 2 ^ 64).toNat).getD 0 := rfl
  rw [hleft, h.src_full hfull, Option.map_some, Option.getD_some]
  omega

/-- And what is stored up to there. -/
theorem Part.advance_wcs (h : Part k R v.st r) (hfull : R.ended = .full) (l : ℕ) :
    (v.advance null k r l).wcs = if null then v.wcs else v.wcs ++ R.wcs := by
  have hstored : R.stored = R.wcs := if_neg (by simp [hfull])
  rw [← hstored, ← h.ws]
  exact put_wcs r.ws

end

/-- **Both loops**, with `W` for the room, or for more than `wbuf` can hold when nothing is stored. -/
theorem bulkLoop_calls (hmem : ∀ b ∈ mem, b < 256) (fuel : ℕ) : ∀ {k W : ℕ} {v : Vars}, v.n < fuel → v.s = some (k : ℤ) →
    Between v.state → Readable v.n (mem.drop k) → (v.st = none → v.internal = 0 ∨ ¬Practical v.n v.wn) →
    v.wbuf ≤ wbufSize → (if null then v.off = 0 ∧ v.wn = wbufSize ∧ v.n < W else v.wn = W) → v.n < 2 ^ 64 →
      Runs null k (calls W v.state ((mem.drop k).take v.n)) ((mem.drop k).take v.n) v
        ((bulkLoop null mem fuel v).bind (rest null mem)) := by
  induction fuel with
  | zero => exact fun h => absurd h (Nat.not_lt_zero _)
  | succ fuel ih =>
    intro k W v hfuel hs hst hread hinternal hwbuf hW hn
    have hbytes := forall_mem_take (forall_mem_drop (k := k) hmem) v.n
    have hroom : Room null v.wn v := by
      refine ⟨hwbuf, fun hnull => ?_⟩
      rw [if_pos hnull] at hW
      rw [hW.1, hW.2.1, Nat.zero_add]
    by_cases hprac : Practical v.n v.wn
    swap
    · -- `mbsrtowcs` is not practical any more, and without a destination `wbuf` holds what is left
      have hcalls : calls W v.state ((mem.drop k).take v.n) = calls v.wn v.state ((mem.drop k).take v.n) := by
        have hlen := List.length_take_le v.n (mem.drop k)
        split_ifs at hW with hnull
        · have hwn : v.wn = 256 := hW.2.1
          unfold Practical at hprac
          exact calls_unbounded W hst hbytes (by omega) (by omega)
        · rw [hW]
      rw [bulkLoop_stop hs hprac, Option.bind_some, hcalls]
      unfold rest
      rw [hs]
      exact byteLoop_calls hmem v.wn hs hst hread hroom
    -- one call of `mbsrtowcs`, which makes the first `n2` calls of the run
    obtain ⟨n2, hn2, hpos, hwn, hfour⟩ := hprac.chunk
    have hinternal' : v.st = none → v.internal = 0 := fun hobject =>
      (hinternal hobject).resolve_right (not_not.mpr hprac)
    have hstate : v.st.getD 0 = v.state := by
      unfold Vars.state
      cases hobject : v.st with
      | none => exact (hinternal' hobject).symm
      | some x => rfl
    obtain ⟨r, hr, hpart⟩ := mbsrtowcs_part (o := v.st) hmem (hstate ▸ hst) hread hpos hfour hn
    rw [hstate] at hpart
    rw [← hn2] at hr
    have hshort := (hread.calls_take hst (forall_mem_drop hmem) hfour).1
    have hroom' := (hroom.mono hwn).put _ (length_stored_le n2 v.state ((mem.drop k).take v.n))
    rw [← hpart.ws] at hroom'
    have hread' := hread.calls_drop hst (forall_mem_drop hmem) n2
    have hend := (calls_st n2 hst hbytes).2 (Or.inl hshort)
    have hlow : n2 ≤ W := by
      split_ifs at hW with hnull
      · omega
      · omega
    have hadd := calls_add n2 (W - n2) hst hbytes
    rw [Nat.add_sub_cancel' hlow] at hadd
    obtain ⟨hused, hle, -, hfull⟩ := calls_counts n2 hst hbytes
    generalize calls n2 v.state ((mem.drop k).take v.n) = R at *
    have hzero : R.ended ≠ .full → R.st = 0 := fun hmore => by rw [hend, if_neg fun h => h.2.elim hmore hshort]
    have hret : R.ended ≠ .bad → r.ret = some R.wcs.length := fun hbad => by rw [hpart.ret, Calls.ret, if_neg hbad]
    -- by what the part ended with; it had bytes enough
    cases hended : R.ended with
    | short => exact absurd hended hshort
    | bad =>
      have hret' : r.ret = none := by rw [hpart.ret, Calls.ret, if_pos hended]
      rw [if_neg (by simp [hended])] at hadd
      rw [hadd, bulkLoop_fail hs hprac hr hret', Option.bind_some, rest_zero rfl]
      exact .of_not_cut (fun h => hshort h.1)
        ⟨_, rfl, hpart.failed hinternal' hroom' hended (hzero (by simp [hended]))⟩
    | nul =>
      have hsrc : r.src = none := by rw [hpart.src (by simp [hended]), Calls.src, if_pos hended]; rfl
      rw [if_neg (by simp [hended])] at hadd
      rw [hadd, bulkLoop_some hs hprac hr (hret (by simp [hended])), bulkLoop_none hsrc, Option.bind_some]
      exact .of_not_cut (fun h => hshort h.1)
        ⟨_, rest_none hsrc, hpart.ended hinternal' hroom' hended (hzero (by simp [hended]))⟩
    | full =>
      -- as many characters as asked for, and the run goes on behind them
      have hlen := hfull hended
      have hne : R.wcs ≠ [] := List.length_pos_iff.mp (by omega)
      rw [List.length_take] at hused
      rw [if_pos hended, hend, if_neg fun h => hne h.1] at hadd
      rw [hadd, bulkLoop_some hs hprac hr (hret (by simp [hended]))]
      let w := v.advance null k r R.wcs.length
      have hleft : w.n = v.n - R.used :=
        hpart.advance_n hended (hused.trans (Nat.min_le_left _ _)) hn _
      have hinit : w.state = 0 := hpart.state hinternal' rfl (put_internal r.ws)
      have hdrop : (mem.drop (k + R.used)).take (v.n - R.used) = ((mem.drop k).take v.n).drop R.used := by
        rw [List.drop_take, List.drop_drop]
      have hobject : w.st = none ↔ v.st = none := hpart.object
      have hinternal'' : w.st = none → w.internal = 0 := fun hnone =>
        (put_internal r.ws).trans (hinternal' (hobject.mp hnone))
      have hW' : if null then w.off = 0 ∧ w.wn = wbufSize ∧ w.n < W - n2 else w.wn = W - n2 := by
        have hoff : w.off = v.off := put_off r.ws
        have hwn' : w.wn = if null then v.wn else v.wn - R.wcs.length := rfl
        rw [hoff, hwn', hleft]
        split_ifs at hW ⊢ with hnull
        · exact ⟨hW.1, hW.2.1, by omega⟩
        · rw [hlen, hW]
      have hrest := ih (k := k + R.used) (W := W - n2) (v := w) (by omega)
        (hpart.src_full hended) (hinit ▸ Or.inl rfl) (by rwa [hleft, ← List.drop_drop])
        (fun hnone => Or.inl (hinternal'' hnone)) hroom' hW' (by omega)
      rw [hinit, hleft, hdrop] at hrest
      exact hrest.behind rfl (hpart.advance_wcs hended _) hobject

/-- The variables that `mbsnrtowcs` starts with. -/
def start (null : Bool) (src : ℤ) (n wn : ℕ) (st : Option ℕ) (internal : ℕ) : Vars :=
  { s := some src, n, wn := if null then wbufSize else wn, st, internal }

theorem mbsnrtowcs_eq (i : ℤ) (o : Option ℕ) (internal : ℕ) : mbsnrtowcs null mem i n wn o internal =
    (bulkLoop null mem (n + 1) (start null i n wn o internal)).bind (rest null mem) := rfl

/-! ### The runs -/

section

variable {o : Option ℕ} {internal W : ℕ}

/-- **A run** that starts with a state object, or with `internal_state` initial, or too short for `mbsrtowcs`. -/
theorem mbsnrtowcs_runs (hmem : ∀ b ∈ mem, b < 256) (hst : Between (o.getD internal)) (hread : Readable n (mem.drop k))
    (hinternal : o = none → internal = 0 ∨ ¬Practical n (if null then wbufSize else wn)) (hn : n < 2 ^ 64)
    (hW : if null then n < W else wn = W) :
    Runs null k (calls W (o.getD internal) ((mem.drop k).take n)) ((mem.drop k).take n) (start null k n wn o internal)
      (mbsnrtowcs null mem k n wn o internal) := by
  rw [mbsnrtowcs_eq]
  refine bulkLoop_calls hmem (n + 1) (v := start null k n wn o internal) (Nat.lt_succ_self n) rfl hst hread hinternal
    (Nat.zero_le _) ?_ hn
  unfold start
  cases null
  · exact hW
  · exact ⟨rfl, rfl, hW⟩

theorem prefix_put (cs : List ℕ) : v.wcs <+: (v.put null cs).wcs := by
  rw [put_wcs]
  split_ifs
  · exact List.prefix_refl _
  · exact List.prefix_append _ _

/-- Nothing is taken back of what is stored. -/
theorem byteLoop_prefix (wn : ℕ) : ∀ {i : ℤ} {v : Vars}, byteLoop null mem wn i v = some v' → v.wcs <+: v'.wcs := by
  induction wn with
  | zero =>
    intro i v h
    cases h
    exact List.prefix_refl _
  | succ wn ih =>
    intro i v h
    rw [byteLoop] at h
    by_cases hn : v.n = 0
    · rw [if_pos hn] at h
      cases h
      exact List.prefix_refl _
    rw [if_neg hn, Option.bind_eq_bind, Option.bind_eq_some_iff] at h
    obtain ⟨r, -, h⟩ := h
    have hput : v.wcs <+: ((v.put null r.wc.toList).leave r.st).wcs := by
      rw [leave_wcs]
      exact prefix_put _
    dsimp only at h
    split_ifs at h
    · cases h
      exact hput
    · cases h
      exact hput
    · cases h
      exact hput
    · have hrest := ih h
      exact hput.trans hrest

theorem bulkLoop_prefix (fuel : ℕ) : ∀ {v : Vars}, bulkLoop null mem fuel v = some v' → v.wcs <+: v'.wcs := by
  induction fuel with
  | zero =>
    intro v h
    cases h
    exact List.prefix_refl _
  | succ fuel ih =>
    intro v h
    cases hs : v.s with
    | none =>
      rw [bulkLoop_none hs] at h
      cases h
      exact List.prefix_refl _
    | some i =>
      by_cases hprac : Practical v.n v.wn
      swap
      · rw [bulkLoop_stop hs hprac] at h
        cases h
        exact List.prefix_refl _
      cases hr : mbsrtowcs false mem i (if v.n / 4 ≥ v.wn then v.wn else v.n / 4) v.st with
      | none =>
        rw [bulkLoop, hs] at h
        dsimp only at h
        rw [if_pos hprac, hr] at h
        cases h
      | some r =>
        cases hret : r.ret with
        | none =>
          rw [bulkLoop_fail hs hprac hr hret] at h
          cases h
          exact prefix_put r.ws
        | some l =>
          rw [bulkLoop_some hs hprac hr hret] at h
          have hrest := ih h
          exact (prefix_put r.ws).trans hrest

theorem rest_prefix (h : rest null mem v = some v') : v.wcs <+: v'.wcs := by
  unfold rest at h
  split at h
  · cases h
    exact List.prefix_refl _
  · exact byteLoop_prefix _ h

end

/-! ### The two states -/

/-- A byte that goes on with a character does not begin one. -/
theorem push_trail (h : Trail b) : push 0 b = .bad := by
  unfold Trail at h
  exact push_not_lead (by omega) (by omega) (by omega)

/-- What begins a character does not go on with one. -/
theorem call_start {x : ℕ} (hx : Inside x) (hs : ∀ b ∈ s, b < 256) (hne : s ≠ []) (h : call push 0 0 s ≠ .bad 0) :
    call push 0 x s = .bad 0 := by
  cases s with
  | nil => exact absurd rfl hne
  | cons b s =>
    by_cases hoob : OOB x b = 0
    · exact absurd (call_cons_bad (push_trail (hx.trail (hs b List.mem_cons_self) hoob)) s) h
    · exact call_cons_bad (push_oob hx hoob) s

/-- What the first `mbsrtowcs` stores, stays. -/
theorem mbsnrtowcs_first {wn internal : ℕ} {o : Option ℕ} {i : ℤ} {r : Srtowcs} {W : ℕ}
    (hW : (if null then wbufSize else wn) = W) (hprac : Practical n W)
    (hr : mbsrtowcs false mem i (if n / 4 ≥ W then W else n / 4) o = some r) (h : mbsnrtowcs null mem i n wn o internal = some v') :
    ((start null i n wn o internal).put null r.ws).wcs <+: v'.wcs := by
  subst hW
  have hs : (start null i n wn o internal).s = some i := rfl
  rw [mbsnrtowcs_eq] at h
  cases hret : r.ret with
  | none =>
    rw [bulkLoop_fail hs hprac hr hret, Option.bind_some] at h
    have hrest := rest_prefix h
    exact hrest
  | some l =>
    rw [bulkLoop_some hs hprac hr hret, Option.bind_eq_some_iff] at h
    obtain ⟨w, hw, h⟩ := h
    have hloop := bulkLoop_prefix n hw
    have hrest := rest_prefix h
    exact hloop.trans hrest

/-- **Without a state object** `mbsrtowcs` starts in the initial state, whatever `internal_state` is: either it fails at the
first byte, or it stores something, and `mbrtowc` would fail there. -/
theorem mbsnrtowcs_astray {internal : ℕ} (null : Bool) (wn : ℕ) (hmem : ∀ b ∈ mem, b < 256) (hin : Inside internal)
    (hread : Readable n (mem.drop k)) (hprac : Practical n (if null then wbufSize else wn)) (hn : n < 2 ^ 64) :
    (call push 0 0 ((mem.drop k).take n) = .bad 0 ∧ ∃ v', mbsnrtowcs null mem k n wn none internal = some v' ∧
      v'.wcs = [] ∧ v'.cnt = none ∧ v'.wbuf ≤ wbufSize) ∨
    (call push 0 0 ((mem.drop k).take n) ≠ .bad 0 ∧ call push 0 internal ((mem.drop k).take n) = .bad 0 ∧
      ∀ v', mbsnrtowcs null mem k n wn none internal = some v' → null = false → v'.wcs ≠ []) := by
  have hbytes := forall_mem_take (forall_mem_drop (k := k) hmem) n
  obtain ⟨n2, hn2, hpos, -, hfour⟩ := hprac.chunk
  obtain ⟨r, hr, hret, hws, -, -⟩ := mbsrtowcs_part (o := none) hmem (Or.inl rfl) hread hpos hfour hn
  have hshort := (hread.calls_take (Or.inl rfl) (forall_mem_drop hmem) hfour).1
  have hne : (mem.drop k).take n ≠ [] := List.length_pos_iff.mp (hread.length_take_pos (by omega))
  rw [Option.getD_none] at hret hws
  rw [← hn2] at hr
  have hs : (start null k n wn none internal).s = some (k : ℤ) := rfl
  obtain ⟨n2, rfl⟩ := Nat.exists_eq_add_one_of_ne_zero hpos.ne'
  have hstored : r.ws ≠ [] → ∀ v', mbsnrtowcs null mem k n wn none internal = some v' → null = false → v'.wcs ≠ [] := by
    rintro hws v' hv' rfl
    have hprefix := mbsnrtowcs_first rfl hprac hr hv'
    rw [put_wcs] at hprefix
    exact fun h => hws (List.prefix_nil.mp (h ▸ hprefix))
  -- by the first call from the initial state, with four bytes to a character
  cases first_call (Or.inl rfl) hbytes with
  | short x _ h =>
    rw [h] at hshort
    exact absurd rfl hshort
  | bad hcall h =>
    rw [h] at hret hws
    have hrun : mbsnrtowcs null mem k n wn none internal = some ((start null k n wn none internal).fail null r) := by
      rw [mbsnrtowcs_eq, bulkLoop_fail hs hprac hr hret, Option.bind_some, rest_zero rfl]
    refine Or.inl ⟨hcall, _, hrun, ?_, rfl, ?_⟩
    · change ((start null k n wn none internal).put null r.ws).wcs = []
      rw [hws, put_wcs]
      cases null <;> rfl
    · change ((start null k n wn none internal).put null r.ws).wbuf ≤ wbufSize
      rw [hws]
      cases null <;> exact Nat.zero_le _
  | nul _ hhead h =>
    obtain ⟨t, ht⟩ := hhead
    have hcall : call push 0 0 ((mem.drop k).take n) ≠ .bad 0 := by
      rw [ht, call_cons_item (push_ascii (by norm_num))]
      simp
    rw [h] at hws
    exact Or.inr ⟨hcall, call_start hin hbytes hne hcall, hstored (hws ▸ List.cons_ne_nil _ _)⟩
  | char c j hitem _ _ _ h =>
    have hcall : call push 0 0 ((mem.drop k).take n) ≠ .bad 0 := by
      rw [hitem]
      simp
    have hne' : ((calls n2 0 (((mem.drop k).take n).drop j)).cons c j).stored ≠ [] := by
      unfold Calls.stored Calls.cons
      split_ifs <;> simp
    rw [h] at hws
    exact Or.inr ⟨hcall, call_start hin hbytes hne hcall, hstored (hws ▸ hne')⟩

end OrbisCompat.Wchar.Restart
