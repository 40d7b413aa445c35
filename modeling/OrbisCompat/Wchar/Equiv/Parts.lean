import OrbisCompat.Wchar.Equiv.Snrtowcs

/-!
# `mbsnrtowcs` in one call and in two

`mbsnrtowcs` of `n` bytes is calls of `mbrtowc`, and two calls of it for parts of them store the same as one, but for the
two slips that `mbsnrtowcs_runs` names (`mbsnrtowcs_kept` and `kept_of_behaves`).
-/

namespace OrbisCompat.Wchar.Restart

open Chunked Utf8

variable {null : Bool} {b c internal k m n p st w wn x : ℕ} {buf s t : List ℕ} {o : Option ℕ} {v v' : Vars}

/-! ### The bytes that may be read -/

theorem visible_take (h : m ≤ n) : visible m buf = (visible n buf).take m := by
  induction n generalizing m buf with
  | zero =>
    obtain rfl := Nat.le_zero.mp h
    rfl
  | succ n ih =>
    cases m with
    | zero => rfl
    | succ m =>
      cases buf with
      | nil => rfl
      | cons b buf =>
        unfold visible
        split_ifs
        · simp
        · rw [ih (Nat.le_of_succ_le_succ h), List.take_succ_cons]

theorem length_visible_le (n : ℕ) : ∀ buf : List ℕ, (visible n buf).length ≤ n := by
  induction n with
  | zero => exact fun _ => le_rfl
  | succ n ih =>
    intro buf
    cases buf with
    | nil => exact Nat.zero_le _
    | cons b buf =>
      unfold visible
      split_ifs
      · simp
      · exact Nat.succ_le_succ (ih buf)

theorem forall_visible (h : ∀ b ∈ buf, b < 256) : ∀ b ∈ visible n buf, b < 256 := by
  induction n generalizing buf with
  | zero => simp [visible]
  | succ n ih =>
    cases buf with
    | nil => simp [visible]
    | cons b buf =>
      rw [List.forall_mem_cons] at h
      unfold visible
      split_ifs
      · simp
      · exact List.forall_mem_cons.mpr ⟨h.1, ih h.2⟩

theorem readable_visible (n : ℕ) : ∀ {buf : List ℕ}, Readable n buf → Readable n (visible n buf) := by
  induction n with
  | zero => exact fun _ => Or.inl (Nat.zero_le _)
  | succ n ih =>
    intro buf h
    cases buf with
    | nil =>
      rcases h with h | h
      · cases h
      · cases h
    | cons b buf =>
      unfold visible
      split_ifs with hb
      · exact Or.inr List.mem_cons_self
      · have hrest : Readable n buf := by
          refine h.imp Nat.le_of_succ_le_succ fun h => ?_
          exact (List.mem_cons.mp h).resolve_left (Ne.symm hb)
        exact (ih hrest).imp Nat.succ_le_succ (List.mem_cons_of_mem b)

theorem Readable.take (h : Readable n s) (hm : m ≤ n) : Readable m (s.take m) := by
  by_cases hlen : m ≤ s.length
  · exact Or.inl (by rw [List.length_take, Nat.min_eq_left hlen])
  · rw [List.take_of_length_le (by omega)]
    exact Or.inr (h.resolve_left (by omega))

/-! ### Calls over a part -/

theorem calls_used_eq_zero (wn : ℕ) (hst : Between st) (hs : ∀ b ∈ s, b < 256) :
    (calls wn st s).used = 0 ↔ (calls wn st s).wcs = [] := by
  cases wn with
  | zero => simp [calls]
  | succ wn =>
    cases first_call hst hs with
    | short x _ h => simp [h]
    | bad _ h => simp [h]
    | nul _ _ h => simp [h]
    | char c j _ _ hj _ h =>
      rw [h]
      simp [Calls.cons, hj.ne']

/-- Where calls go on that came to no end: a character that the part cuts off begins anew, with what the state held before. -/
def Calls.next (r : Calls) (st : ℕ) (s : List ℕ) : ℕ := if r.Cut s then (if r.used = 0 then st else 0) else r.st

/-- **Calls over a part** of `m` bytes, for `w` characters at most, begin the calls over the whole. -/
theorem calls_split (hst : Between st) (hs : ∀ b ∈ s, b < 256) (hw : w ≤ wn) : calls wn st s =
    if (calls w st (s.take m)).ended = .bad ∨ (calls w st (s.take m)).ended = .nul then calls w st (s.take m)
    else (calls (wn - (calls w st (s.take m)).wcs.length) ((calls w st (s.take m)).next st (s.take m))
      (s.drop (calls w st (s.take m)).used)).behind (calls w st (s.take m)).wcs (calls w st (s.take m)).used := by
  have hs' := forall_mem_take hs m
  have hwhole : ∀ b ∈ s.take m ++ s.drop m, b < 256 := by rwa [List.take_append_drop]
  have hadd := calls_add w (wn - w) hst hs'
  rw [Nat.add_sub_cancel' hw] at hadd
  obtain ⟨hused, -, -, hfull⟩ := calls_counts w hst hs'
  have hleft := fun h => (calls_st w hst hs').2 (Or.inr (hused.antisymm h))
  -- by what stopped the calls over the part
  cases hend : (calls w st (s.take m)).ended with
  | full =>
    have happend := calls_append (t := s.drop m) w hst hwhole (by simp [hend])
    have hall := calls_add w (wn - w) hst hs
    rw [List.take_append_drop] at happend
    rw [Nat.add_sub_cancel' hw, happend, if_pos hend] at hall
    have hnot : ¬(calls w st (s.take m)).Cut (s.take m) := fun h => absurd (hend.symm.trans h.1) (by simp)
    rw [if_neg (by simp), hall, hfull hend, Calls.next, if_neg hnot]
  | nul =>
    rw [if_neg (by simp [hend])] at hadd
    have happend := calls_append (t := s.drop m) wn hst hwhole (by simp [hadd, hend])
    rw [List.take_append_drop, hadd] at happend
    rw [if_pos (Or.inr rfl), happend]
  | bad =>
    rw [if_neg (by simp [hend])] at hadd
    have happend := calls_append (t := s.drop m) wn hst hwhole (by simp [hadd, hend])
    rw [List.take_append_drop, hadd] at happend
    rw [if_pos (Or.inl rfl), happend]
  | short =>
    rw [if_neg (by simp [hend])] at hadd
    have hresume := calls_resume (t := s.drop m) wn hst hwhole (by simp [hadd, hend])
    rw [List.take_append_drop, hadd] at hresume
    have hnext : (calls w st (s.take m)).next st (s.take m) = if (calls w st (s.take m)).used = 0 then st else 0 := by
      unfold Calls.next
      split_ifs with hcut hzero hzero
      · rfl
      · rfl
      · -- all bytes are taken, and there are none
        rw [hleft (not_lt.mp fun h => hcut ⟨hend, h⟩), if_pos ⟨(calls_used_eq_zero w hst hs').mp hzero, Or.inr hend⟩]
      · rw [hleft (not_lt.mp fun h => hcut ⟨hend, h⟩), if_neg fun h => hzero ((calls_used_eq_zero w hst hs').mpr h.1)]
    rw [if_neg (by simp), hresume, hnext]

/-- Behind the calls over a part there is still enough to read. -/
theorem Readable.calls_part (hst : Between st) (hs : ∀ b ∈ s, b < 256) (h : Readable n s) (w m : ℕ) :
    Readable (n - (calls w st (s.take m)).used) (s.drop (calls w st (s.take m)).used) := by
  have hs' := forall_mem_take hs m
  have hused := (calls_counts w hst hs').1
  by_cases hlen : n ≤ s.length
  · refine Or.inl ?_
    rw [List.length_drop]
    omega
  refine Or.inr ?_
  have hzero := h.resolve_left hlen
  have hdrop : (s.take m ++ s.drop m).drop (calls w st (s.take m)).used =
      (s.take m).drop (calls w st (s.take m)).used ++ s.drop m := List.drop_append_of_le_length hused
  rw [List.take_append_drop] at hdrop
  rw [hdrop, List.mem_append]
  rw [← List.take_append_drop m s, List.mem_append] at hzero
  exact hzero.imp_left fun hzero => (calls_terminated hst hs' hzero w).2

/-! ### One call -/

/-- `mbsrtowcs` does not see the state that the call begins with. -/
def Astray (o : Option ℕ) (internal n wn : ℕ) : Prop := o = none ∧ internal ≠ 0 ∧ Practical n wn

instance : Decidable (Astray o internal n wn) := inferInstanceAs (Decidable (_ ∧ _))

/-- **A call from `k` on** that does not go astray. -/
theorem mbsnrtowcs_from (null : Bool) (hs : ∀ b ∈ s, b < 256) (hst : Between (o.getD internal)) (hread : Readable n (s.drop k))
    (hlen : s.length ≤ k + n) (hastray : ¬Astray o internal n (if null then wbufSize else wn)) (hn : n < 2 ^ 64) {W : ℕ}
    (hW : if null then n < W else wn = W) :
    Runs null k (calls W (o.getD internal) (s.drop k)) (s.drop k) (start null k n wn o internal)
      (mbsnrtowcs null s k n wn o internal) := by
  -- a call that does not go astray sees the state, or never calls `mbsrtowcs`
  have hinternal : o = none → internal = 0 ∨ ¬Practical n (if null then wbufSize else wn) := by
    intro hnone
    by_contra h
    rw [not_or, not_not] at h
    exact hastray ⟨hnone, h⟩
  have hrun := mbsnrtowcs_runs hs hst hread hinternal hn hW
  rwa [List.take_of_length_le (by rw [List.length_drop]; omega)] at hrun

theorem Calls.behind_stored (ws : List ℕ) (d : ℕ) (r : Calls) : (r.behind ws d).stored = ws ++ r.stored := by
  unfold stored
  rw [Calls.behind_ended]
  split_ifs
  · exact List.append_assoc ws r.wcs [0]
  · rfl

/-- What a state held before a character that a part cuts off is lost. -/
def Calls.Lost (r : Calls) (st : ℕ) (s : List ℕ) : Prop := st ≠ 0 ∧ r.Cut s ∧ r.used = 0

instance (r : Calls) : Decidable (r.Lost st s) := inferInstanceAs (Decidable (_ ∧ _))

/-- Then the next call fails at once. -/
theorem Calls.Lost.calls_eq_nil (hst : Between st) (hs : ∀ b ∈ s, b < 256)
    (h : (calls w st (s.take m)).Lost st (s.take m)) (wn : ℕ) : (calls wn 0 s).stored = [] := by
  obtain ⟨hne, ⟨hend, hlt⟩, hused⟩ := h
  have hs' := forall_mem_take hs m
  have hnil : s.take m ≠ [] := List.length_pos_iff.mp (by omega)
  -- the part is the middle of a character, and no character begins there
  have hmore : ∃ x, call push 0 st (s.take m) = .more x := by
    cases w with
    | zero => cases hend
    | succ w =>
      cases first_call hst hs' with
      | short x hcall _ => exact ⟨x, hcall⟩
      | bad _ h =>
        rw [h] at hend
        cases hend
      | nul _ _ h =>
        rw [h] at hend
        cases hend
      | char c j _ _ hj _ h =>
        rw [h] at hused
        exact absurd hused (by simp [Calls.cons, hj.ne'])
  have hbad : call push 0 0 (s.take m) = .bad 0 := by
    by_contra hbad
    obtain ⟨x, hx⟩ := hmore
    rw [call_start (hst.resolve_left hne) hs' hnil hbad] at hx
    cases hx
  have hwhole : call push 0 0 s = .bad 0 := by
    rw [← List.take_append_drop m s, call_append, hbad]
  cases wn with
  | zero => rfl
  | succ wn => rw [calls_bad (Or.inl rfl) hs hwhole]; rfl

/-- What calls leave in the state is where they go on, unless something is lost. -/
theorem Calls.next_of_kept {r : Calls} (h : ¬r.Lost st s) : (if r.Cut s then 0 else r.st) = r.next st s := by
  unfold Calls.next
  split_ifs with hcut hused
  · by_contra hne
    exact h ⟨Ne.symm hne, hcut, hused⟩
  · rfl
  · rfl

/-- **Calls over a part, and calls behind it**, with the state that the first leave. -/
theorem calls_part_stored (hst : Between st) (hs : ∀ b ∈ s, b < 256) (hw : w ≤ wn) {r : Calls} (hr : calls w st (s.take m) = r)
    (hbad : r.ended ≠ .bad) (hnul : r.ended ≠ .nul) :
    r.wcs ++ (calls (wn - r.wcs.length) (if r.Cut (s.take m) then 0 else r.st) (s.drop r.used)).stored =
      if r.Lost st (s.take m) then [] else (calls wn st s).stored := by
  have hs' := forall_mem_take hs m
  split_ifs with hcut hlost hlost
  · -- the second calls begin behind bytes that they do not know
    have hnil := (calls_used_eq_zero w hst hs').mp (hr ▸ hlost.2.2)
    rw [hr] at hnil
    rw [hlost.2.2, List.drop_zero, hnil, Calls.Lost.calls_eq_nil hst hs (hr ▸ hlost)]
    rfl
  · have hnext := Calls.next_of_kept hlost
    rw [if_pos hcut] at hnext
    rw [calls_split hst hs hw (m := m), hr, if_neg (not_or.mpr ⟨hbad, hnul⟩), Calls.behind_stored, hnext]
  · exact absurd hlost.2.1 hcut
  · have hnext := Calls.next_of_kept hlost
    rw [if_neg hcut] at hnext
    rw [calls_split hst hs hw (m := m), hr, if_neg (not_or.mpr ⟨hbad, hnul⟩), Calls.behind_stored, hnext]

/-! ### Two calls -/

/-- The second call does not go astray either. -/
theorem Outcome.not_astray {r : Calls} (hout : Outcome false 0 r s (start false 0 m w o internal) v)
    (hr : r = calls w (o.getD internal) s) (hst : Between (o.getD internal)) (hs : ∀ b ∈ s, b < 256)
    (hcut : o = none → ¬r.Cut s) (hwhole : ¬Astray o internal n wn) :
    ¬Astray v.st v.internal (n - r.used) (wn - r.wcs.length) := by
  rintro ⟨hnone, hne, hprac⟩
  have ho : o = none := hout.object.mp hnone
  have hnot := hcut ho
  have hstate : v.internal = r.st := by
    have := hout.state
    rw [if_neg hnot] at this
    rwa [Vars.state, hnone] at this
  have hend : r.ended ≠ .short ∨ r.used = s.length := by
    refine or_iff_not_imp_left.mpr fun hshort => ?_
    have hused := (calls_counts w hst hs).1
    rw [← hr] at hused
    exact hused.antisymm (not_lt.mp fun h => hnot ⟨not_not.mp hshort, h⟩)
  have hleft := (calls_st w hst hs).2 (hr ▸ hend)
  have hzero := calls_used_eq_zero w hst hs
  rw [← hr] at hleft hzero
  rw [hstate, hleft] at hne
  split_ifs at hne with hwcs
  · rw [hzero.mpr hwcs.1, hwcs.1] at hprac
    subst ho
    exact hwhole ⟨rfl, hne, hprac⟩
  · exact hne rfl

/-- What a call that comes to no end hands to the next. -/
theorem Outcome.handed {r : Calls} (hout : Outcome false 0 r s (start false 0 m w o internal) v) (hbad : r.ended ≠ .bad)
    (hnul : r.ended ≠ .nul) : v.cnt = some r.wcs.length ∧ v.s = some (r.used : ℤ) ∧ v.wcs = r.wcs := by
  refine ⟨?_, ?_, ?_⟩
  · rw [hout.cnt, if_neg hbad]
    change some (0 + _) = _
    rw [Nat.zero_add]
  · rw [hout.src hbad, Calls.src, if_neg hnul, Option.map_some, zero_add]
  · rw [hout.wcs, Calls.stored, if_neg hnul]
    rfl

/-- **Two calls** store what one call should, but for what is lost between them. -/
theorem twoCalls_calls (hbuf : ∀ b ∈ buf, b < 256) (hst : Between (o.getD internal)) (hread : Readable n buf) (hm : m ≤ n)
    (hw : w ≤ wn) (hn : n < 2 ^ 64) (hpart : ¬Astray o internal m w) (hwhole : ¬Astray o internal n wn)
    (hcut : o = none → ¬(calls w (o.getD internal) (visible m buf)).Cut (visible m buf) ∧
      ¬(calls wn (o.getD internal) (visible n buf)).Cut (visible n buf)) :
    twoCalls buf n m wn w o internal =
      some (if (calls w (o.getD internal) (visible m buf)).Lost (o.getD internal) (visible m buf) then []
        else (calls wn (o.getD internal) (visible n buf)).stored) := by
  have hs := forall_visible (n := n) hbuf
  have hread' := readable_visible n hread
  have hlen := length_visible_le n buf
  unfold twoCalls
  rw [visible_take hm] at hcut ⊢
  generalize visible n buf = s at *
  have hs' := forall_mem_take hs m
  have hlen' : (s.take m).length ≤ 0 + m := by
    rw [Nat.zero_add]
    exact List.length_take_le m s
  have hfirst := mbsnrtowcs_from false (k := 0) hs' hst (hread'.take hm) hlen' hpart (hm.trans_lt hn) rfl
  have hsplit := calls_split hst hs hw (m := m)
  have hmore := hread'.calls_part hst hs w m
  have hused := (calls_counts w hst hs').1
  have hstored := calls_part_stored hst hs hw (m := m) rfl
  rw [List.drop_zero] at hfirst
  generalize hR : calls w (o.getD internal) (s.take m) = R at *
  obtain ⟨v, hv, hout⟩ := hfirst.outcome fun h => (hcut h).1
  rw [Nat.cast_zero] at hv hout
  have hwcs : v.wcs = R.stored := by
    rw [hout.wcs]
    rfl
  rw [hv, Option.bind_eq_bind, Option.bind_some]
  by_cases hbad : R.ended = .bad
  · have hcnt : v.cnt = none := by rw [hout.cnt, if_pos hbad]
    have hkept : ¬R.Lost (o.getD internal) (s.take m) := fun h => absurd (hbad.symm.trans h.2.1.1) (by simp)
    rw [hcnt, hwcs, if_neg hkept, hsplit, if_pos (Or.inl hbad)]
  by_cases hnul : R.ended = .nul
  · have hsrc : v.s = none := by rw [hout.src hbad, Calls.src, if_pos hnul]; rfl
    have hkept : ¬R.Lost (o.getD internal) (s.take m) := fun h => absurd (hnul.symm.trans h.2.1.1) (by simp)
    rw [hsrc, hwcs, if_neg hkept, hsplit, if_pos (Or.inr hnul)]
    cases v.cnt <;> rfl
  obtain ⟨hcnt, hsrc, hpartWcs⟩ := hout.handed hbad hnul
  -- the second call, with the state that the first leaves
  have hstate : v.st.getD v.internal = if R.Cut (s.take m) then 0 else R.st := hout.state
  have hbetween : Between (v.st.getD v.internal) := by
    rw [hstate]
    split_ifs
    · exact Or.inl rfl
    · exact hR ▸ (calls_st w hst hs').1
  have hastray := hout.not_astray hR.symm hst hs' (fun h => (hcut h).1) hwhole
  have hsecond := mbsnrtowcs_from false hs hbetween hmore (by omega) hastray (by omega) rfl
  rw [hstate] at hsecond
  have hsecondCut : v.st = none →
      ¬(calls (wn - R.wcs.length) (if R.Cut (s.take m) then 0 else R.st) (s.drop R.used)).Cut (s.drop R.used) := by
    intro hnone
    have ho := hout.object.mp hnone
    have hkept : ¬R.Lost (o.getD internal) (s.take m) := fun h => (hcut ho).1 h.2.1
    rw [if_neg (not_or.mpr ⟨hbad, hnul⟩)] at hsplit
    rw [Calls.next_of_kept hkept, ← Calls.behind_cut R.wcs, ← hsplit]
    exact (hcut ho).2
  obtain ⟨v', hv', hout'⟩ := hsecond.outcome hsecondCut
  have hwcs' : v'.wcs =
      (calls (wn - R.wcs.length) (if R.Cut (s.take m) then 0 else R.st) (s.drop R.used)).stored := by
    rw [hout'.wcs]
    rfl
  rw [hcnt, hsrc]
  dsimp only
  rw [Int.toNat_natCast, hv', Option.bind_some, hpartWcs, hwcs', hstored hbad hnul]

/-! ### Calls that go astray -/

/-- No character at all, but an error. -/
theorem calls_nil_bad (hst : Between st) (hs : ∀ b ∈ s, b < 256) (hwn : wn ≠ 0) :
    (calls wn st s).ended = .bad ∧ (calls wn st s).wcs = [] ↔ call push 0 st s = .bad 0 := by
  obtain ⟨wn, rfl⟩ := Nat.exists_eq_add_one_of_ne_zero hwn
  cases first_call hst hs with
  | short x hcall h => simp [h, hcall]
  | bad hcall h => simp [h, hcall]
  | nul hzero hhead h =>
    obtain ⟨t, rfl⟩ := hhead
    rw [h, hzero, call_cons_item (push_ascii (by norm_num))]
    simp
  | char c j hcall _ _ _ h => simp [h, hcall, Calls.cons]

theorem calls_one_bad (hst : Between st) (hs : ∀ b ∈ s, b < 256) :
    (calls 1 st s).ended = .bad ↔ call push 0 st s = .bad 0 := by
  rw [← calls_nil_bad hst hs one_ne_zero]
  refine ⟨fun h => ⟨h, ?_⟩, And.left⟩
  cases first_call hst hs with
  | short x _ h' => rw [← Nat.zero_add 1, h']
  | bad _ h' => rw [← Nat.zero_add 1, h']
  | nul _ _ h' => rw [← Nat.zero_add 1, h']
  | char c j _ _ _ _ h' =>
    rw [← Nat.zero_add 1, h'] at h
    cases h

/-- What stores nothing stops at an error, unless it has no room, no bytes, or a character that is cut. -/
theorem ended_bad (hst : Between st) (hs : ∀ b ∈ s, b < 256) (hwn : wn ≠ 0) (hne : s ≠ [])
    (hcut : ¬(calls wn st s).Cut s) (h : (calls wn st s).stored = []) :
    (calls wn st s).ended = .bad ∧ (calls wn st s).wcs = [] := by
  obtain ⟨-, -, -, hfull⟩ := calls_counts wn hst hs
  have hused := calls_used_eq_zero wn hst hs
  unfold Calls.stored at h
  cases hend : (calls wn st s).ended with
  | full =>
    rw [if_neg (by simp [hend])] at h
    have := hfull hend
    rw [h] at this
    exact absurd this.symm hwn
  | nul => simp [hend] at h
  | bad => exact ⟨rfl, by rwa [if_neg (by simp [hend])] at h⟩
  | short =>
    rw [if_neg (by simp [hend])] at h
    exact absurd ⟨hend, hused.mpr h ▸ List.length_pos_iff.mpr hne⟩ hcut

theorem stored_of_bad (hst : Between st) (hs : ∀ b ∈ s, b < 256) (h : call push 0 st s = .bad 0) (wn : ℕ) :
    (calls wn st s).stored = [] := by
  cases wn with
  | zero => rfl
  | succ wn =>
    rw [calls_bad hst hs h]
    rfl

/-- An error at the first character is no character that is cut. -/
theorem not_cut_of_bad (hst : Between st) (hs : ∀ b ∈ s, b < 256) (h : call push 0 st s = .bad 0) (wn : ℕ) :
    ¬(calls wn st s).Cut s := by
  rintro ⟨hend, -⟩
  cases wn with
  | zero => cases hend
  | succ wn =>
    rw [calls_bad hst hs h] at hend
    cases hend

/-- Four bytes are enough for a call to come to something. -/
theorem Readable.not_more (hst : Between st) (hs : ∀ b ∈ s, b < 256) (h : Readable n s) (hn : 4 ≤ n) :
    call push 0 st s ≠ .more x := by
  intro hmore
  rcases h with h | h
  · have := (call_length hst hs).1 x hmore
    omega
  · exact not_more_of_mem hst hs h x hmore

/-- An error at the first character of the whole is one at the first character of a part. -/
theorem call_part_bad (hst : Between st) (hs : ∀ b ∈ s, b < 256) (h : Readable n s) (hm : m ≤ n) (hfour : 4 ≤ m) :
    call push 0 st (s.take m) = .bad 0 ↔ call push 0 st s = .bad 0 := by
  have hs' := forall_mem_take hs m
  constructor
  · intro hbad
    rw [← List.take_append_drop m s, call_append, hbad]
  · intro hbad
    rw [← List.take_append_drop m s, call_append] at hbad
    cases hcall : call push 0 st (s.take m) with
    | item c j y =>
      rw [hcall] at hbad
      cases hbad
    | bad y => rw [call_bad_st hcall]
    | more y => exact absurd hcall ((h.take hm).not_more hst hs' hfour)

theorem Practical.four_le (h : Practical n wn) : 4 ≤ n := by
  obtain ⟨n2, -, hpos, -, hle⟩ := h.chunk
  omega

/-- A first call that has nothing to do. -/
theorem twoCalls_nothing (h : m = 0 ∨ w = 0) : twoCalls buf n m wn w o internal =
    (mbsnrtowcs false (visible n buf) 0 n wn o internal).map Vars.wcs := by
  have hfirst : mbsnrtowcs false (visible m buf) 0 m w o internal = some (start false 0 m w o internal) := by
    have hprac : ¬Practical m w := by
      unfold Practical
      omega
    rw [mbsnrtowcs_eq, bulkLoop_stop rfl hprac, Option.bind_some]
    change byteLoop false (visible m buf) w 0 (start false 0 m w o internal) = _
    cases w with
    | zero => rfl
    | succ w => exact if_pos (h.resolve_right (Nat.succ_ne_zero w))
  unfold twoCalls
  rw [hfirst]
  cases hrun : mbsnrtowcs false (visible n buf) 0 n wn o internal with
  | none => simp [start, hrun]
  | some v => simp [start, hrun]

/-- **A first call that goes astray** stores nothing where both states fail, and otherwise what the state would not let it. -/
theorem twoCalls_astray (n wn : ℕ) (hbuf : ∀ b ∈ buf, b < 256) (hin : Inside internal) (hread : Readable m buf) (hm : m < 2 ^ 64)
    (hprac : Practical m w) :
    (call push 0 0 (visible m buf) = .bad 0 ∧ twoCalls buf n m wn w none internal = some []) ∨
    (call push 0 0 (visible m buf) ≠ .bad 0 ∧ call push 0 internal (visible m buf) = .bad 0 ∧
      ∀ ws, twoCalls buf n m wn w none internal = some ws → ws ≠ []) := by
  have hrun := mbsnrtowcs_astray (k := 0) false w (forall_visible (n := m) hbuf) hin (readable_visible m hread) hprac hm
  rw [List.drop_zero, List.take_of_length_le (length_visible_le m buf), Nat.cast_zero] at hrun
  unfold twoCalls
  rcases hrun with ⟨hbad, v, hv, hwcs, hcnt, -⟩ | ⟨hne, hbad, hall⟩
  · exact Or.inl ⟨hbad, by rw [hv, Option.bind_eq_bind, Option.bind_some, hcnt, hwcs]⟩
  · refine Or.inr ⟨hne, hbad, fun ws hws => ?_⟩
    rw [Option.bind_eq_bind, Option.bind_eq_some_iff] at hws
    obtain ⟨v, hv, hws⟩ := hws
    have hstored := hall v hv rfl
    cases hcnt : v.cnt with
    | none =>
      rw [hcnt] at hws
      cases hws
      exact hstored
    | some l =>
      cases hsrc : v.s with
      | none =>
        rw [hcnt, hsrc] at hws
        cases hws
        exact hstored
      | some i =>
        rw [hcnt, hsrc] at hws
        dsimp only at hws
        rw [Option.bind_eq_some_iff] at hws
        obtain ⟨v', -, hws⟩ := hws
        cases hws
        exact fun h => hstored (List.append_eq_nil_iff.mp h).1

/-! ### What `mbsnrtowcs` is for -/

/-- What a conversion should come to; nothing bounds it when nothing is stored. -/
def wanted (null : Bool) (buf : List ℕ) (n wn : ℕ) (o : Option ℕ) (internal : ℕ) : Calls :=
  calls (if null then n + 1 else wn) (o.getD internal) (visible n buf)

/-- `mbsnrtowcs` reads nothing behind `n` bytes or the terminator, stays inside `wbuf`, stores through no null pointer, and
is calls of `mbrtowc`.  With a destination it stores `wn` characters at most, and two calls store the same as one. -/
def Behaves (null : Bool) (buf : List ℕ) (n m wn w : ℕ) (o : Option ℕ) (internal : ℕ) : Prop :=
  ∃ v, mbsnrtowcs null (visible n buf) 0 n wn o internal = some v ∧ v.wbuf ≤ wbufSize ∧
    v.cnt = (wanted null buf n wn o internal).ret ∧
    (null = false → v.wcs.length ≤ wn ∧ v.wcs = (wanted null buf n wn o internal).stored ∧
      twoCalls buf n m wn w o internal = some v.wcs)

/-- What the two slips need.  With a state object: it held bytes of a character, the first call's bytes end inside that
character, and the conversion would store something.  Without: the bytes end inside a character, or `mbsrtowcs` does not
see a state that is not initial; this shows unless the first character is an error for it and the conversion fails. -/
def Kept (null : Bool) (buf : List ℕ) (n m wn w : ℕ) (o : Option ℕ) (internal : ℕ) : Prop :=
  match o with
  | some x => null = true ∨
      ¬((calls w x (visible m buf)).Lost x (visible m buf) ∧ (wanted null buf n wn o internal).stored ≠ [])
  | none => ¬(wanted null buf n wn o internal).Cut (visible n buf) ∧
      (null = true ∨ ¬(calls w internal (visible m buf)).Cut (visible m buf)) ∧
      (Astray o internal n (if null then wbufSize else wn) ∨ null = false ∧ Astray o internal m w →
        (calls 1 0 (visible n buf)).ended = .bad ∧ (wanted null buf n wn o internal).ended = .bad ∧
          (null = true ∨ (wanted null buf n wn o internal).wcs = []))

theorem wanted_of_outcome
    (h : Outcome null 0 (wanted null buf n wn o internal) (visible n buf) (start null 0 n wn o internal) v) :
    v.cnt = (wanted null buf n wn o internal).ret ∧
      (null = false → v.wcs.length ≤ wn ∧ v.wcs = (wanted null buf n wn o internal).stored) := by
  constructor
  · rw [h.cnt]
    unfold Calls.ret
    split_ifs
    · rfl
    · change some (0 + _) = _
      rw [Nat.zero_add]
  · rintro rfl
    have hwcs : v.wcs = (wanted false buf n wn o internal).stored := h.wcs
    rw [hwcs]
    exact ⟨length_stored_le wn _ _, rfl⟩

section

variable (hbuf : ∀ b ∈ buf, b < 256) (hread : Readable n buf) (hn : n < 2 ^ 64)

include hbuf hread hn

theorem mbsnrtowcs_wanted (null : Bool) (wn : ℕ) (hst : Between (o.getD internal))
    (hastray : ¬Astray o internal n (if null then wbufSize else wn)) :
    Runs null 0 (wanted null buf n wn o internal) (visible n buf) (start null 0 n wn o internal)
      (mbsnrtowcs null (visible n buf) 0 n wn o internal) := by
  have hlen := length_visible_le n buf
  have hrun := mbsnrtowcs_from null (k := 0) (forall_visible (n := n) hbuf) hst (readable_visible n hread)
    (by omega) hastray hn (W := if null then n + 1 else wn) (by split_ifs; exacts [Nat.lt_succ_self n, rfl])
  rwa [List.drop_zero] at hrun

/-- **With a state object**, only what a state held can be lost. -/
theorem behaves_some (null : Bool) (internal : ℕ) (hst : Between x) (hm : m ≤ n) (hw : w ≤ wn) :
    Behaves null buf n m wn w (some x) internal ↔ Kept null buf n m wn w (some x) internal := by
  have hastray : ∀ n wn, ¬Astray (some x) internal n wn := fun _ _ h => Option.some_ne_none x h.1
  have hrun := mbsnrtowcs_wanted (o := some x) hbuf hread hn null wn hst (hastray _ _)
  have htwo := twoCalls_calls (o := some x) hbuf hst hread hm hw hn (hastray m w) (hastray n wn) (by simp)
  obtain ⟨v, hv, hout⟩ := hrun.outcome fun h => absurd h (Option.some_ne_none x)
  obtain ⟨hcnt, hwcs⟩ := wanted_of_outcome hout
  unfold Behaves Kept
  rw [hv]
  cases null with
  | true => simp [hout.wbuf, hcnt]
  | false =>
    obtain ⟨hlen, hwcs⟩ := hwcs rfl
    have hwhole : calls wn ((some x).getD internal) (visible n buf) = wanted false buf n wn (some x) internal := rfl
    rw [hwhole, Option.getD_some, ← hwcs] at htwo
    dsimp only
    rw [htwo, ← hwcs]
    split_ifs with hlost
    · constructor
      · rintro ⟨_, -, -, -, hall⟩
        obtain ⟨-, hwcs', htwo'⟩ := hall rfl
        have hnil := Option.some.inj htwo'
        exact Or.inr fun h => h.2 (hwcs' ▸ hnil.symm)
      · intro h
        have hnil : v.wcs = [] := by
          by_contra hne
          exact h.elim (fun h => by cases h) fun h => h ⟨hlost, hne⟩
        exact ⟨v, rfl, hout.wbuf, hcnt, fun _ => ⟨hlen, rfl, congrArg some hnil.symm⟩⟩
    · exact ⟨fun _ => Or.inr fun h => hlost h.1, fun _ => ⟨v, rfl, hout.wbuf, hcnt, fun _ => ⟨hlen, rfl, rfl⟩⟩⟩

/-- What two calls store is stored by a first call whose bytes do not end inside a character. -/
theorem not_cut_of_twoCalls (hst : Between internal) (hm : m ≤ n) (hastray : ¬Astray none internal m w)
    (h : twoCalls buf n m wn w none internal = some t) :
    ¬(calls w internal (visible m buf)).Cut (visible m buf) := by
  intro hcut
  have hread' : Readable m buf := hread.imp_left hm.trans
  have hrun := mbsnrtowcs_wanted (o := none) hbuf hread' (hm.trans_lt hn) false w hst hastray
  unfold twoCalls at h
  rw [hrun.stuck hcut rfl] at h
  cases h

/-- A first call that does not go astray, where the state leads to no character. -/
theorem twoCalls_of_bad (hst : Between internal) (hm : m ≤ n) (hm0 : m ≠ 0) (hw0 : w ≠ 0)
    (hastray : ¬Astray none internal m w) (hcut : ¬(calls w internal (visible m buf)).Cut (visible m buf))
    (hbad : call push 0 internal (visible n buf) = .bad 0) : twoCalls buf n m wn w none internal = some [] := by
  have hread' : Readable m buf := hread.imp_left hm.trans
  have hs := forall_visible (n := m) hbuf
  have hrun := mbsnrtowcs_wanted (o := none) hbuf hread' (hm.trans_lt hn) false w hst hastray
  have hwanted : wanted false buf m w none internal = calls w internal (visible m buf) := rfl
  have hitem : ∀ c j x, call push 0 internal (visible m buf) ≠ .item c j x := by
    intro c j x hcall
    rw [visible_take hm] at hcall
    rw [← List.take_append_drop m (visible n buf), call_append, hcall] at hbad
    cases hbad
  obtain ⟨w, rfl⟩ := Nat.exists_eq_add_one_of_ne_zero hw0
  have hcalls : calls (w + 1) internal (visible m buf) = ⟨[], 0, .bad, 0⟩ := by
    cases first_call hst hs with
    | short x _ h =>
      have hlen := (readable_visible m hread').length_take_pos hm0
      rw [List.take_of_length_le (length_visible_le m buf)] at hlen
      rw [h] at hcut
      exact absurd ⟨rfl, hlen⟩ hcut
    | bad _ h => exact h w
    | nul hzero hhead _ =>
      obtain ⟨t, ht⟩ := hhead
      have hcall : call push 0 internal (visible m buf) = .item 0 1 0 := by
        rw [ht, hzero]
        exact call_cons_item (push_ascii (by norm_num)) t
      exact absurd hcall (hitem 0 1 0)
    | char c j hcall _ _ _ _ => exact absurd hcall (hitem c j 0)
  rw [hwanted, hcalls] at hrun
  obtain ⟨v, hv, hout⟩ := hrun.outcome fun _ h => by cases h.1
  have hcnt : v.cnt = none := hout.cnt
  have hwcs : v.wcs = [] := hout.wcs
  unfold twoCalls
  rw [hv, Option.bind_eq_bind, Option.bind_some, hcnt, hwcs]

/-- **Without a state object**, one direction. -/
theorem behaves_of_kept (hst : Between internal) (hm : m ≤ n) (hw : w ≤ wn)
    (h : Kept null buf n m wn w none internal) : Behaves null buf n m wn w none internal := by
  obtain ⟨hcut, hcut', hboth⟩ := h
  have hs := forall_visible (n := n) hbuf
  have hread' := readable_visible n hread
  have hreadm : Readable m buf := hread.imp_left hm.trans
  -- what goes astray fails at once, and so would `mbrtowc`
  have hfails : Astray none internal n (if null then wbufSize else wn) ∨ null = false ∧ Astray none internal m w →
      null = false → call push 0 internal (visible n buf) = .bad 0 := by
    intro hor hnull
    obtain ⟨-, hend, hnil⟩ := hboth hor
    subst hnull
    have hwn : wn ≠ 0 := by
      rcases hor with h | ⟨-, h⟩
      · exact h.2.2.1
      · exact fun hzero => h.2.2.1 (Nat.le_zero.mp (hzero ▸ hw))
    exact (calls_nil_bad hst hs hwn).mp ⟨hend, hnil.resolve_left Bool.false_ne_true⟩
  have hpart : null = false → Astray none internal m w → twoCalls buf n m wn w none internal = some [] := by
    intro hnull hastray
    obtain ⟨hbad0, -, -⟩ := hboth (Or.inr ⟨hnull, hastray⟩)
    rcases twoCalls_astray n wn hbuf (hst.resolve_left hastray.2.1) hreadm (hm.trans_lt hn) hastray.2.2
      with ⟨-, htwo⟩ | ⟨hne, -, -⟩
    · exact htwo
    · rw [visible_take hm, Ne, call_part_bad (Or.inl rfl) hs hread' hm hastray.2.2.four_le] at hne
      exact absurd ((calls_one_bad (Or.inl rfl) hs).mp hbad0) hne
  by_cases hA : Astray none internal n (if null then wbufSize else wn)
  · -- the one call goes astray
    obtain ⟨hbad0, hend, -⟩ := hboth (Or.inl hA)
    have hrun := mbsnrtowcs_astray (k := 0) null wn hs (hst.resolve_left hA.2.1) hread' hA.2.2 hn
    rw [List.drop_zero, List.take_of_length_le (length_visible_le n buf), Nat.cast_zero] at hrun
    rcases hrun with ⟨-, v, hv, hwcs, hcnt, hwbuf⟩ | ⟨hne, -, -⟩
    swap
    · exact absurd ((calls_one_bad (Or.inl rfl) hs).mp hbad0) hne
    refine ⟨v, hv, hwbuf, by rw [hcnt, Calls.ret, if_pos hend], fun hnull => ?_⟩
    have hbad := hfails (Or.inl hA) hnull
    subst hnull
    refine ⟨by simp [hwcs], by rw [hwcs]; exact (stored_of_bad hst hs hbad wn).symm, ?_⟩
    rw [hwcs]
    by_cases hzero : m = 0 ∨ w = 0
    · rw [twoCalls_nothing hzero, hv, Option.map_some, hwcs]
    rw [not_or] at hzero
    by_cases hP : Astray none internal m w
    · exact hpart rfl hP
    · exact twoCalls_of_bad hbuf hread hn hst hm hzero.1 hzero.2 hP (hcut'.resolve_left Bool.false_ne_true) hbad
  · -- it does not, but the first of two may
    have hrun := mbsnrtowcs_wanted (o := none) hbuf hread hn null wn hst hA
    obtain ⟨v, hv, hout⟩ := hrun.outcome fun _ => hcut
    obtain ⟨hcnt, hwcs⟩ := wanted_of_outcome hout
    refine ⟨v, hv, hout.wbuf, hcnt, fun hnull => ⟨(hwcs hnull).1, (hwcs hnull).2, ?_⟩⟩
    rw [(hwcs hnull).2]
    by_cases hP : Astray none internal m w
    · have hbad := hfails (Or.inr ⟨hnull, hP⟩) hnull
      rw [hpart hnull hP]
      subst hnull
      exact congrArg some (stored_of_bad hst hs hbad wn).symm
    · subst hnull
      have hcut' := hcut'.resolve_left Bool.false_ne_true
      rw [twoCalls_calls (o := none) hbuf hst hread hm hw hn hP hA fun _ => ⟨hcut', hcut⟩, if_neg fun h => hcut' h.2.1]
      rfl

/-- Where the state leads to no character that a first call could begin with, its bytes do not end inside one. -/
theorem not_cut_of_first (hst : Between internal) (hm : m ≤ n) (htwo : twoCalls buf n m wn w none internal = some t)
    (hbad : Astray none internal m w → call push 0 internal (visible n buf) = .bad 0) :
    ¬(calls w internal (visible m buf)).Cut (visible m buf) := by
  by_cases hP : Astray none internal m w
  · have hbad' := (call_part_bad hst (forall_visible (n := n) hbuf) (readable_visible n hread) hm hP.2.2.four_le).mpr (hbad hP)
    rw [← visible_take hm] at hbad'
    exact not_cut_of_bad hst (forall_visible hbuf) hbad' w
  · exact not_cut_of_twoCalls hbuf hread hn hst hm hP htwo

/-- **Without a state object**, the other direction, for a call that goes astray. -/
theorem kept_of_astray (hst : Between internal) (hm : m ≤ n) (hA : Astray none internal n (if null then wbufSize else wn))
    (h : Behaves null buf n m wn w none internal) : Kept null buf n m wn w none internal ∨
      null = true ∧ Astray none internal n wbufSize ∧ (calls 1 0 (visible n buf)).ended ≠ .bad := by
  obtain ⟨v, hv, -, hcnt, hall⟩ := h
  have hs := forall_visible (n := n) hbuf
  have hrun := mbsnrtowcs_astray (k := 0) null wn hs (hst.resolve_left hA.2.1) (readable_visible n hread) hA.2.2 hn
  rw [List.drop_zero, List.take_of_length_le (length_visible_le n buf), Nat.cast_zero, hv] at hrun
  rcases hrun with ⟨hbad0, v', hv', hwcs, hnone, -⟩ | ⟨hne, hbad, hstored⟩
  · -- an error at once, which is right only if the state fails there too
    cases hv'
    have hend : (wanted null buf n wn none internal).ended = .bad := by
      rw [hnone] at hcnt
      unfold Calls.ret at hcnt
      by_contra hne
      rw [if_neg hne] at hcnt
      cases hcnt
    have hnil : null = false → (wanted null buf n wn none internal).wcs = [] := by
      intro hnull
      have hstored := (hall hnull).2.1
      rw [hwcs, Calls.stored, if_neg (by simp [hend])] at hstored
      exact hstored.symm
    have hcut : ¬(wanted null buf n wn none internal).Cut (visible n buf) := fun h => absurd (hend.symm.trans h.1) (by simp)
    have hbad0 := (calls_one_bad (Or.inl rfl) hs).mpr hbad0
    cases null with
    | true => exact Or.inl ⟨hcut, Or.inl rfl, fun _ => ⟨hbad0, hend, Or.inl rfl⟩⟩
    | false =>
      have hbad := (calls_nil_bad hst hs hA.2.2.1).mp ⟨hend, hnil rfl⟩
      have hfirst := not_cut_of_first hbuf hread hn hst hm (hall rfl).2.2 fun _ => hbad
      exact Or.inl ⟨hcut, Or.inr hfirst, fun _ => ⟨hbad0, hend, Or.inr (hnil rfl)⟩⟩
  · cases null with
    | true => exact Or.inr ⟨rfl, hA, mt (calls_one_bad (Or.inl rfl) hs).mp hne⟩
    | false =>
      refine absurd ?_ (hstored v rfl rfl)
      rw [(hall rfl).2.1]
      exact stored_of_bad hst hs hbad wn

/-- **Without a state object**, the other direction, for a call that does not go astray. -/
theorem kept_of_straight (hst : Between internal) (hm : m ≤ n) (hw : w ≤ wn)
    (hA : ¬Astray none internal n (if null then wbufSize else wn)) (h : Behaves null buf n m wn w none internal) :
    Kept null buf n m wn w none internal := by
  obtain ⟨v, hv, -, -, hall⟩ := h
  have hs := forall_visible (n := n) hbuf
  have hread' := readable_visible n hread
  have hrun := mbsnrtowcs_wanted (o := none) hbuf hread hn null wn hst hA
  have hcut : ¬(wanted null buf n wn none internal).Cut (visible n buf) := by
    intro hcut
    rw [hrun.stuck hcut rfl] at hv
    cases hv
  cases null with
  | true => exact ⟨hcut, Or.inl rfl, fun h => h.elim (fun h => absurd h hA) fun h => by cases h.1⟩
  | false =>
    obtain ⟨-, hwcs, htwo⟩ := hall rfl
    have hwn : Astray none internal m w → wn ≠ 0 := fun hP hzero => hP.2.2.1 (Nat.le_zero.mp (hzero ▸ hw))
    have hboth : Astray none internal m w → (calls 1 0 (visible n buf)).ended = .bad ∧
        (wanted false buf n wn none internal).ended = .bad ∧ (wanted false buf n wn none internal).wcs = [] := by
      intro hP
      have hfour := hP.2.2.four_le
      rcases twoCalls_astray n wn hbuf (hst.resolve_left hP.2.1) (hread.imp_left hm.trans) (hm.trans_lt hn) hP.2.2
        with ⟨hbad0, hnil⟩ | ⟨-, hbad, hstored⟩
      · rw [visible_take hm, call_part_bad (Or.inl rfl) hs hread' hm hfour] at hbad0
        rw [htwo, Option.some_inj] at hnil
        have hne : visible n buf ≠ [] := by
          have hlen := hread'.length_take_pos (by omega)
          rw [List.take_of_length_le (length_visible_le n buf)] at hlen
          exact List.length_pos_iff.mp hlen
        exact ⟨(calls_one_bad (Or.inl rfl) hs).mpr hbad0, ended_bad hst hs (hwn hP) hne hcut (hwcs.symm.trans hnil)⟩
      · rw [visible_take hm, call_part_bad hst hs hread' hm hfour] at hbad
        exact absurd (hwcs.trans (stored_of_bad hst hs hbad wn)) (hstored v.wcs htwo)
    refine ⟨hcut, Or.inr (not_cut_of_first hbuf hread hn hst hm htwo fun hP => ?_), fun h => ?_⟩
    · exact (calls_nil_bad hst hs (hwn hP)).mp (hboth hP).2
    · obtain ⟨hbad0, hend, hnil⟩ := hboth (h.elim (fun h => absurd h hA) And.right)
      exact ⟨hbad0, hend, Or.inr hnil⟩

/-- **Without a state object**, the other direction, unless nothing is stored and `mbsrtowcs` begins with a character that
the state does not lead to. -/
theorem kept_of_behaves (hst : Between internal) (hm : m ≤ n) (hw : w ≤ wn) (h : Behaves null buf n m wn w none internal) :
    Kept null buf n m wn w none internal ∨
      null = true ∧ Astray none internal n wbufSize ∧ (calls 1 0 (visible n buf)).ended ≠ .bad := by
  by_cases hA : Astray none internal n (if null then wbufSize else wn)
  · exact kept_of_astray hbuf hread hn hst hm hA h
  · exact Or.inl (kept_of_straight hbuf hread hn hst hm hw hA h)

end

/-- **What `mbsnrtowcs` does**, for every part, destination and state: it behaves where nothing shows of the two slips, and
only there, unless it stores nothing and begins, without a state object, with a character that `internal_state` does not
lead to. -/
theorem mbsnrtowcs_iff (hbuf : ∀ b ∈ buf, b < 256) (hp : Holds t (o.getD internal)) (hread : n ≤ buf.length ∨ 0 ∈ buf)
    (hm : m ≤ n) (hw : w ≤ wn) (hn : n < 2 ^ 64) (null : Bool) :
    (Kept null buf n m wn w o internal → Behaves null buf n m wn w o internal) ∧
      (Behaves null buf n m wn w o internal → Kept null buf n m wn w o internal ∨
        null = true ∧ Astray o internal n wbufSize ∧ (calls 1 0 (visible n buf)).ended ≠ .bad) := by
  cases o with
  | none =>
    exact ⟨behaves_of_kept hbuf hread hn hp.between hm hw, kept_of_behaves hbuf hread hn hp.between hm hw⟩
  | some x =>
    have hiff := behaves_some hbuf hread hn null internal hp.between hm hw
    exact ⟨hiff.mpr, fun h => Or.inl (hiff.mp h)⟩

/-- `0xE2` in the state, and `0x82 0xAC 0x41` in two parts. -/
theorem mbsnrtowcs_iff_euro : (Kept false [0x82, 0xAC, 0x41] 3 2 4 4 (some 0xC3000002) 0 →
      Behaves false [0x82, 0xAC, 0x41] 3 2 4 4 (some 0xC3000002) 0) ∧
    (Behaves false [0x82, 0xAC, 0x41] 3 2 4 4 (some 0xC3000002) 0 → Kept false [0x82, 0xAC, 0x41] 3 2 4 4 (some 0xC3000002) 0 ∨
      false = true ∧ Astray (some 0xC3000002) 0 3 wbufSize ∧ (calls 1 0 (visible 3 [0x82, 0xAC, 0x41])).ended ≠ .bad) :=
  mbsnrtowcs_iff (t := [0xE2]) (by decide) (by decide +kernel) (by decide) (by decide) (by decide)
    (by decide) false

/-- `A` and two bytes of a character, without a state object: a store through a null pointer. -/
theorem behaves_cut_off : ¬∀ (null : Bool) (buf t : List ℕ) (n m wn w : ℕ) (o : Option ℕ) (internal : ℕ),
    (∀ b ∈ buf, b < 256) → Holds t (o.getD internal) → n ≤ buf.length ∨ 0 ∈ buf → m ≤ n → w ≤ wn → n < 2 ^ 64 →
      Behaves null buf n m wn w o internal := by
  intro h
  have hnone : mbsnrtowcs false (visible 3 [0x41, 0xE2, 0x82]) 0 3 9 none 0 = none := by decide +kernel
  obtain ⟨v, hv, -⟩ := h false [0x41, 0xE2, 0x82] [] 3 3 9 9 none 0 (by decide) holds_nil (by decide) le_rfl le_rfl (by decide)
  rw [hnone] at hv
  cases hv

end OrbisCompat.Wchar.Restart
