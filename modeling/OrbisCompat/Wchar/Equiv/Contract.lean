import OrbisCompat.Wchar.Equiv.Produced

/-!
# The output contract of `vswprintf`

Whatever a format and its arguments are, the buffer holds the start of their sequence with a terminator behind it,
and the result is the length of the sequence exactly when all of it is there (`vswprintf_contract`).  The sequence
does not depend on the buffer, so two calls agree on what both have room for.

A sequence is given up between two items once it is longer than `INT_MAX`: the result is `-1` by then, but a buffer
of more than `2 ^ 31` elements could have held the next item (`not_contract_full`).
-/

namespace OrbisCompat.Wchar

open Fallible Sink

variable {Dbl LDbl : Type} {libc : Libc Dbl LDbl} {fmt : List ℕ} {ap : List (Arg Dbl LDbl)} {cs : List ℕ}
  {e : Option Exit}

/-- Every format has a sequence. -/
theorem exists_sequence (libc : Libc Dbl LDbl) (fmt : List ℕ) (ap : List (Arg Dbl LDbl)) :
    ∃ cs e, Sequence libc fmt ap cs e := by
  obtain ⟨cs, e, h, -, -⟩ := loop_produces libc { o := .after (fun _ => 0) 0 [], f := fmt, aq := ap } [] rfl le_rfl
  exact ⟨cs, e, h⟩

/-- The buffer after the terminator. -/
def terminate (cs : List ℕ) (s : ℕ → ℕ) (n : ℕ) : ℕ → ℕ :=
  Function.update (image s (n - 1) cs) (min cs.length (n - 1)) 0

/-- `vswprintf`, by the sequence of its format. -/
theorem vswprintf_eq (hseq : Sequence libc fmt ap cs e) (hdef : e ≠ some .undefined) (s : ℕ → ℕ) {n : ℕ}
    (hn : 0 < n) :
    ∃ out, vswprintf libc s n fmt ap = some out ∧ out.s = terminate cs s n ∧
      out.ret = if e = none ∧ cs.length ≤ INT_MAX ∧ cs.length < n then (cs.length : ℤ) else -1 := by
  have hstart : ({ s, cap := n - 1, len := 0 } : W32Out) = .after s (n - 1) [] := by simp [W32Out.after]
  obtain ⟨ds, e', hds, ho, he⟩ := loop_produces libc { o := .after s (n - 1) [], f := fmt, aq := ap } [] rfl le_rfl
  obtain ⟨rfl, rfl⟩ := hds.unique hseq
  rw [List.nil_append] at ho
  unfold vswprintf
  rw [if_neg (by omega), hstart]
  dsimp only at ho he ⊢
  revert ho he
  generalize loop libc fmt.length _ = r
  obtain ⟨⟨o, f, aq, mallocs, stores⟩, exit⟩ := r
  rintro rfl hexit
  obtain rfl : exit = e := hexit
  have hterm : Function.update (W32Out.after s (n - 1) cs).s
      (if cs.length < n - 1 then cs.length else n - 1) 0 = terminate cs s n := by
    have hput : (if cs.length < n - 1 then cs.length else n - 1) = min cs.length (n - 1) := by
      split_ifs <;> omega
    rw [hput]
    rfl
  have hlen : (W32Out.after s (n - 1) cs).len = cs.length := rfl
  have hcap : (W32Out.after s (n - 1) cs).cap = n - 1 := rfl
  simp only [hlen, hcap, hterm]
  cases exit with
  | some e => cases e <;> simp at hdef ⊢
  | none =>
    by_cases hmax : cs.length > INT_MAX
    · simp [hmax, Nat.not_le.mpr hmax]
    · have hle : cs.length ≤ INT_MAX := Nat.not_lt.mp hmax
      by_cases hfit : cs.length < n
      · simp [hle, hmax, hfit, Nat.not_le.mpr hfit]
      · simp [hle, hmax, hfit, Nat.not_lt.mp hfit]

/-! ### Arguments of the right types -/

/-- No `va_arg` on the way goes wrong, and `P` holds of what comes out. -/
abbrev Defined {α : Type} (P : α → Prop) : Except Exit α → Prop := Post (· ≠ .undefined) P

variable {ts : List ArgType}

theorem vaArg_defined {α : Type} {as : Arg Dbl LDbl → Option α} {ty : ArgType} {aq : List (Arg Dbl LDbl)}
    (has : ∀ a, a.type = ty → (as a).isSome) (h : aq.map Arg.type = ty :: ts) :
    Defined (fun r => r.2.map Arg.type = ts) (vaArg as aq) := by
  cases aq with
  | nil => simp at h
  | cons a aq =>
    obtain ⟨hty, hts⟩ := List.cons_eq_cons.mp h
    obtain ⟨v, hv⟩ := Option.isSome_iff_exists.mp (has a hty)
    simp only [vaArg, hv]
    exact hts

theorem asInt_isSome (a : Arg Dbl LDbl) (h : a.type = .int) : a.asInt.isSome := by
  cases a <;> first | rfl | cases h

theorem asLong_isSome (a : Arg Dbl LDbl) (h : a.type = .long) : a.asLong.isSome := by
  cases a <;> first | rfl | cases h

theorem asDouble_isSome (a : Arg Dbl LDbl) (h : a.type = .double) : a.asDouble.isSome := by
  cases a <;> first | rfl | cases h

theorem asLongDouble_isSome (a : Arg Dbl LDbl) (h : a.type = .longDouble) : a.asLongDouble.isSome := by
  cases a <;> first | rfl | cases h

theorem asStr_isSome (a : Arg Dbl LDbl) (h : a.type = .str) : a.asStr.isSome := by
  cases a <;> first | rfl | cases h

theorem asWstr_isSome (a : Arg Dbl LDbl) (h : a.type = .wstr) : a.asWstr.isSome := by
  cases a <;> first | rfl | cases h

theorem asPtr_isSome (a : Arg Dbl LDbl) (h : a.type = .ptr) : a.asPtr.isSome := by
  cases a <;> first | rfl | cases h

variable {x : Locals Dbl LDbl}

theorem readWidth_defined (h : x.aq.map Arg.type = (widthTypes x.f).1 ++ ts) :
    Defined (fun x' => x'.aq.map Arg.type = ts ∧ x'.f = (widthTypes x.f).2) (readWidth x) := by
  unfold widthTypes at h ⊢
  unfold readWidth
  by_cases hstar : x.f.headD 0 = '*'.toNat
  · rw [if_pos hstar] at h ⊢
    rw [if_pos hstar]
    refine (vaArg_defined asInt_isSome h).bind fun r hr => ?_
    dsimp only
    split_ifs <;> first | exact ⟨hr, rfl⟩ | exact Exit.noConfusion
  · rw [if_neg hstar] at h ⊢
    rw [if_neg hstar]
    rcases w32Getint (some 0) x.f with ⟨_ | w, f⟩
    · exact Exit.noConfusion
    · exact ⟨h, rfl⟩

theorem readPrecision_defined (h : x.aq.map Arg.type = (precisionTypes x.f).1 ++ ts) :
    Defined (fun x' => x'.aq.map Arg.type = ts ∧ x'.f = (precisionTypes x.f).2) (readPrecision x) := by
  unfold precisionTypes at h ⊢
  unfold readPrecision
  by_cases hstar : x.f.headD 0 = '.'.toNat ∧ x.f.tail.headD 0 = '*'.toNat
  · rw [if_pos hstar] at h ⊢
    rw [if_pos hstar]
    exact (vaArg_defined asInt_isSome h).bind fun r hr => ⟨hr, rfl⟩
  rw [if_neg hstar] at h ⊢
  rw [if_neg hstar]
  by_cases hdot : x.f.headD 0 = '.'.toNat
  · rw [if_pos hdot] at h ⊢
    rw [if_pos hdot]
    rcases w32Getint (some 0) x.f.tail with ⟨_ | w, f⟩
    · exact Exit.noConfusion
    · exact ⟨h, rfl⟩
  · rw [if_neg hdot] at h ⊢
    rw [if_neg hdot]
    exact ⟨h, rfl⟩

theorem readSpec_defined (h : x.aq.map Arg.type = (specTypes x.f).1 ++ ts) :
    Defined (fun x' => x'.aq.map Arg.type = convTypes x'.len (Label.of x'.conv) ++ ts ∧ x'.f = (specTypes x.f).2)
      (readSpec x) := by
  unfold readSpec
  split_ifs
  · exact Exit.noConfusion
  · unfold specTypes at h ⊢
    dsimp only at h ⊢
    rw [List.append_assoc, List.append_assoc] at h
    refine (readWidth_defined (x := readFlags x) h).bind ?_
    rintro y ⟨haq, hf⟩
    replace hf : y.f = (widthTypes (flagsLoop [] false x.f).2.2).2 := hf
    rw [← hf] at haq ⊢
    refine (readPrecision_defined haq).bind ?_
    rintro z ⟨haq, hf⟩
    rw [← hf] at haq ⊢
    exact ⟨haq, rfl⟩

theorem numberText_defined {i : ℕ} {aq : List (Arg Dbl LDbl)} {mid : List Char} {args : List (Arg Dbl LDbl)}
    (h : aq.map Arg.type = ts) : Defined (fun r => r.2.1.map Arg.type = ts) (numberText libc x i aq mid args) := by
  unfold numberText formatNumber
  cases libc.snprintf (cfText x mid) args with
  | none => exact Exit.noConfusion
  | some out =>
    dsimp only
    split_ifs <;> first | exact h | exact Exit.noConfusion

theorem integerArg_defined {len : Length} {aq : List (Arg Dbl LDbl)} (h : aq.map Arg.type = integerTypes len ++ ts) :
    Defined (fun r => r.2.map Arg.type = ts) (signedArg len aq) ∧
      Defined (fun r => r.2.map Arg.type = ts) (unsignedArg len aq) := by
  cases len with
  | hh | h | none =>
    exact ⟨(vaArg_defined asInt_isSome h).bind fun r hr => hr, (vaArg_defined asInt_isSome h).bind fun r hr => hr⟩
  | bigL => exact ⟨Exit.noConfusion, Exit.noConfusion⟩
  | l | ll | j | z | t => exact ⟨vaArg_defined asLong_isSome h, vaArg_defined asLong_isSome h⟩

theorem text_defined {i : ℕ} (h : x.aq.map Arg.type = convTypes x.len (Label.of x.conv) ++ ts) :
    Defined (fun r => r.2.1.map Arg.type = ts) (text libc x i) := by
  unfold text
  revert h
  cases Label.of x.conv with
  | count =>
    intro h
    refine (vaArg_defined asPtr_isSome h).bind fun r hr => ?_
    dsimp only
    split_ifs
    · exact Exit.noConfusion
    · exact hr
  | char =>
    intro h
    exact (vaArg_defined asInt_isSome h).bind fun r hr => hr
  | wideString =>
    intro h
    refine (vaArg_defined asWstr_isSome h).bind fun r hr => ?_
    dsimp only
    split_ifs
    · exact Exit.noConfusion
    · exact hr
  | string =>
    intro h
    refine (vaArg_defined asStr_isSome h).bind fun r hr => ?_
    dsimp only
    cases decode (x.p.getD INT_MAX) (r.1.getD nullText) with
    | none => exact Exit.noConfusion
    | some d =>
      dsimp only
      split_ifs
      · exact Exit.noConfusion
      · exact hr
  | signed =>
    intro h
    exact (integerArg_defined h).1.bind fun r hr => numberText_defined hr
  | unsigned =>
    intro h
    exact (integerArg_defined h).2.bind fun r hr => numberText_defined hr
  | pointer =>
    intro h
    exact (vaArg_defined asPtr_isSome h).bind fun r hr => numberText_defined hr
  | floating =>
    unfold convTypes
    dsimp only
    intro h
    split_ifs at h ⊢
    · exact (vaArg_defined asLongDouble_isSome h).bind fun r hr => numberText_defined hr
    · exact (vaArg_defined asDouble_isSome h).bind fun r hr => numberText_defined hr
    · exact Exit.noConfusion
  | default =>
    intro h
    exact Exit.noConfusion

/-- An item takes its arguments, and leaves those of the format behind it. -/
theorem item_defined (libc : Libc Dbl LDbl) {p : Place Dbl LDbl} (h : Takes p.f ts) (hts : ts <+: p.aq.map Arg.type)
    (hf : p.f.headD 0 ≠ 0) :
    Defined (fun r => ∃ ts', Takes r.2.f ts' ∧ ts' <+: r.2.aq.map Arg.type) (item libc p) := by
  unfold item
  cases h with
  | ends h => exact absurd h hf
  | literal h hnext =>
    rw [if_pos h]
    exact ⟨_, hnext, hts⟩
  | percent h h' hnext =>
    rw [if_neg (by simpa using h), if_pos h']
    exact ⟨_, hnext, hts⟩
  | spec h h' hnext =>
    rw [if_neg (by simpa using h), if_neg h']
    obtain ⟨us, hus⟩ := hts
    rw [List.append_assoc] at hus
    refine (readSpec_defined (x := { f := p.f.tail, aq := p.aq }) hus.symm).bind ?_
    rintro x ⟨haq, hf⟩
    refine (text_defined haq).bind fun r hr => ?_
    exact ⟨_, by rwa [hf], us, hr.symm⟩

/-- A list with the types that a format takes, and whatever behind them, matches it. -/
theorem matches_of_takes (h : Takes fmt ts) (hap : ts <+: ap.map Arg.type) : Matches libc fmt ap := by
  suffices hrun : ∀ k (p : Place Dbl LDbl) cs e, Produces libc (INT_MAX < ·) k p cs e →
      ∀ ts, Takes p.f ts → ts <+: p.aq.map Arg.type → e ≠ some .undefined from
    fun cs hcs => hrun _ _ _ _ hcs _ h hap rfl
  intro k p cs e hcs
  induction hcs with
  | ends => exact fun _ _ _ => by simp
  | stops => exact fun _ _ _ => by simp
  | leaves hf _ hitem =>
    intro ts hts haq
    have hdef := (item_defined libc hts haq hf).of_error hitem
    exact fun he => hdef (Option.some.inj he)
  | item hf _ hitem _ ih =>
    intro ts hts haq
    obtain ⟨ts', hts', haq'⟩ := (item_defined libc hts haq hf).of_ok hitem
    exact ih ts' hts' haq'

/-! ### The contract -/

theorem contract_of_eq {s : ℕ → ℕ} {n : ℕ} {out : Formatted} (hn : 0 < n) (hs : out.s = terminate cs s n)
    (hret : out.ret = if e = none ∧ cs.length ≤ INT_MAX ∧ cs.length < n then (cs.length : ℤ) else -1) :
    Contract cs (e = none) s n out := by
  refine ⟨fun hzero => absurd hzero hn.ne', ?_, ?_, ?_, ?_, ?_⟩
  · intro i hi
    rw [hs, terminate, Function.update_of_ne (by omega), image_frame (.inl (by omega))]
  · intro i hlen hi
    rw [hs, terminate, Function.update_of_ne (by omega), image_getElem hlen hi]
  · intro _
    rw [hs, terminate, Function.update_self]
  · intro hnone hmax hfit
    rw [hret, if_pos ⟨hnone, hmax, hfit⟩]
  · intro h
    rw [hret, if_neg h]

/-- Only a sequence longer than `INT_MAX` is given up. -/
theorem Produces.full {k : ℕ} {p : Place Dbl LDbl} (h : Produces libc (INT_MAX < ·) k p cs e)
    (hlen : k + cs.length ≤ INT_MAX) : Produces libc (fun _ => False) k p cs e := by
  induction h with
  | ends hf => exact .ends hf
  | stops _ hstop =>
    rw [List.length_nil] at hlen
    omega
  | leaves hf _ hitem => exact .leaves hf id hitem
  | item hf _ hitem _ ih =>
    rw [List.length_append] at hlen
    exact .item hf id hitem (ih (by omega))

/-- **The contract of `vswprintf`**: a format and its arguments have one sequence.  For every buffer the call stores
its start and a terminator, and returns its length exactly when all of it is there.  So two calls agree on the
characters of the shorter one. -/
theorem vswprintf_contract (hmatch : Matches libc fmt ap) :
    ∃ cs e, Sequence libc fmt ap cs e ∧ (∀ cs' e', Sequence libc fmt ap cs' e' → cs' = cs ∧ e' = e) ∧
      (cs.length ≤ INT_MAX → FullSequence libc fmt ap cs e) ∧
      (∀ s n, ∃ out, vswprintf libc s n fmt ap = some out ∧ Contract cs (e = none) s n out) ∧
      ∀ s₁ n₁ out₁ s₂ n₂ out₂, vswprintf libc s₁ n₁ fmt ap = some out₁ → vswprintf libc s₂ n₂ fmt ap = some out₂ →
        n₁ ≤ n₂ → ∀ i < min cs.length (n₁ - 1), out₁.s i = out₂.s i := by
  obtain ⟨cs, e, hseq⟩ := exists_sequence libc fmt ap
  have hdef : e ≠ some .undefined := by
    rintro rfl
    exact hmatch cs hseq
  have hcall : ∀ s n, ∃ out, vswprintf libc s n fmt ap = some out ∧ Contract cs (e = none) s n out := by
    intro s n
    rcases Nat.eq_zero_or_pos n with rfl | hn
    · exact ⟨{ s, ret := -1 }, rfl, fun _ => ⟨rfl, rfl⟩, fun i _ => rfl, fun i _ hi => absurd hi (by omega),
        fun hpos => absurd hpos (by omega), fun _ _ hfit => absurd hfit (by omega), fun _ => rfl⟩
    · obtain ⟨out, hout, hs, hret⟩ := vswprintf_eq hseq hdef s hn
      exact ⟨out, hout, contract_of_eq hn hs hret⟩
  refine ⟨cs, e, hseq, fun cs' e' h => hseq.unique h, fun hlen => hseq.full (by omega), hcall, ?_⟩
  intro s₁ n₁ out₁ s₂ n₂ out₂ h₁ h₂ hle i hi
  obtain ⟨out, hout, hcontract₁⟩ := hcall s₁ n₁
  obtain rfl : out = out₁ := Option.some.inj (hout.symm.trans h₁)
  obtain ⟨out', hout', hcontract₂⟩ := hcall s₂ n₂
  obtain rfl : out' = out₂ := Option.some.inj (hout'.symm.trans h₂)
  rw [hcontract₁.stored i (by omega) (by omega), hcontract₂.stored i (by omega) (by omega)]

/-- A libc whose `snprintf` has nothing to format, and that has no memory. -/
def bareLibc : Libc Unit Unit where
  snprintf _ _ := some []
  snprintf_le := by
    rintro _ _ _ h
    cases h
    exact Nat.zero_le _
  malloc _ _ := false

/-- `"%3s!"` -/
def shortFormat : List ℕ := ['%', '3', 's', '!'].map Char.toNat

/-- The two bytes of one character. -/
def shortArgs : List (Arg Unit Unit) := [.str (some [0xC3, 0xA9])]

theorem vswprintf_contract_short :
    Matches bareLibc shortFormat shortArgs ∧
      ∃ cs e, Sequence bareLibc shortFormat shortArgs cs e ∧
        (∀ cs' e', Sequence bareLibc shortFormat shortArgs cs' e' → cs' = cs ∧ e' = e) ∧
        (cs.length ≤ INT_MAX → FullSequence bareLibc shortFormat shortArgs cs e) ∧
        (∀ s n, ∃ out, vswprintf bareLibc s n shortFormat shortArgs = some out ∧ Contract cs (e = none) s n out) ∧
        ∀ s₁ n₁ out₁ s₂ n₂ out₂, vswprintf bareLibc s₁ n₁ shortFormat shortArgs = some out₁ →
          vswprintf bareLibc s₂ n₂ shortFormat shortArgs = some out₂ → n₁ ≤ n₂ →
          ∀ i < min cs.length (n₁ - 1), out₁.s i = out₂.s i := by
  have htakes : Takes shortFormat [.str] := .spec rfl (by decide) (.literal (by decide) (.ends rfl))
  have hmatch : Matches bareLibc shortFormat shortArgs := matches_of_takes htakes (by decide)
  exact ⟨hmatch, vswprintf_contract hmatch⟩

/-! ### The sequence that is given up -/

/-- `"%2147483647cab"`. -/
def longFormat : List ℕ := ['%', '2', '1', '4', '7', '4', '8', '3', '6', '4', '7', 'c', 'a', 'b'].map Char.toNat

def longArgs : List (Arg Unit Unit) := [.int 120]

/-- The padded character. -/
def longText : List ℕ := justify ' '.toNat false INT_MAX ['x'.toNat]

theorem length_longText : longText.length = INT_MAX := by
  rw [longText, length_justify]
  rfl

theorem readSpec_long : readSpec { f := longFormat.tail, aq := longArgs } =
    .ok { f := ['a'.toNat, 'b'.toNat], aq := longArgs, w := INT_MAX, conv := 'c'.toNat } := by
  decide +kernel

theorem item_long : item bareLibc { f := longFormat, aq := longArgs } =
    .ok (longText, { f := ['a'.toNat, 'b'.toNat], aq := [] }) := by
  unfold item
  rw [if_neg (by decide), if_neg (by decide)]
  simp only [bind, Except.bind, readSpec_long]
  rfl

theorem item_literal (c : ℕ) (f : List ℕ) (hc : c ≠ '%'.toNat) :
    item bareLibc { f := c :: f, aq := [] } = .ok ([c], { f, aq := [] }) := by
  unfold item
  rw [if_pos (by simpa using hc)]
  rfl

theorem full_long : FullSequence bareLibc longFormat longArgs
    (longText ++ (['a'.toNat] ++ (['b'.toNat] ++ []))) none :=
  .item (by decide) id item_long (.item (by decide) id (item_literal _ _ (by decide))
    (.item (by decide) id (item_literal _ _ (by decide)) (.ends rfl)))

/-- The sequence is given up before its last character. -/
theorem sequence_long : Sequence bareLibc longFormat longArgs (longText ++ (['a'.toNat] ++ []))
    (some .overflow) := by
  refine .item (by decide) (by decide) item_long (.item (by decide) ?_ (item_literal _ _ (by decide))
    (.stops (by decide) ?_))
  · rw [length_longText]
    omega
  · rw [length_longText, List.length_singleton]
    omega

/-- **A buffer with room for more than `2 ^ 31` characters** does not get the last of these, which follows the
check that gave the sequence up. -/
theorem not_contract_full :
    Matches bareLibc longFormat longArgs ∧
      ∃ cs, FullSequence bareLibc longFormat longArgs cs none ∧
        ¬∃ out, vswprintf bareLibc (fun _ => 0) (2 ^ 31 + 2) longFormat longArgs = some out ∧
          Contract cs True (fun _ => 0) (2 ^ 31 + 2) out := by
  have htakes : Takes longFormat [.int] :=
    .spec rfl (by decide) (.literal (by decide) (.literal (by decide) (.ends rfl)))
  refine ⟨matches_of_takes htakes (by decide), _, full_long, ?_⟩
  rintro ⟨out, hout, hcontract⟩
  have hlen : (longText ++ (['a'.toNat] ++ [])).length = 2 ^ 31 := by
    rw [List.length_append, length_longText]
    rfl
  obtain ⟨out', hout', hs, -⟩ := vswprintf_eq sequence_long (by decide) (fun _ => 0) (n := 2 ^ 31 + 2) (by omega)
  obtain rfl : out' = out := Option.some.inj (hout'.symm.trans hout)
  have hzero : out'.s (2 ^ 31) = 0 := by
    have hmin : min (2 ^ 31) (2 ^ 31 + 2 - 1) = 2 ^ 31 := by omega
    rw [hs, terminate, hlen, hmin, Function.update_self]
  have hlast : out'.s (2 ^ 31) = 'b'.toNat := by
    rw [hcontract.stored (2 ^ 31) (by simp [length_longText, INT_MAX]) (by omega)]
    rw [List.getElem_append_right (by rw [length_longText]; decide)]
    simp [length_longText, INT_MAX]
  rw [hzero] at hlast
  exact absurd hlast (by decide)

end OrbisCompat.Wchar
